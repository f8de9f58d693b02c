import Std.Data.ExtTreeMap
import UnifyFramework.Notification.Erasing

/-!
# Removal of observers under a condition

`_observers` for the observers of either build, with the two functions that remove by a
condition. The class `observer` has other members on iOS than on Android, and nothing here
depends on them, so the table is over an arbitrary type of observers.

`removeObserverByCondition` erases in the stored vector, at indices that were collected
before the first erasure, and is the filter it is meant to be exactly when the condition
holds for at most one observer under the name. `removeAllObserversByCondition` erases in a
copy of every entry, and has the effect it is meant to have exactly when there is nothing
to remove.
-/

namespace UnifyFramework

namespace Notification

/-- `id`, `SEL`, `JS_Function` and the target of a `std::function`; 0 is `NULL`. -/
abbrev Pointer := ℕ

/-- `observer` in the iOS build. -/
structure IosObserver where
  func : Pointer := 0
  objcTarget : Pointer := 0
  objcLastTarget : Pointer := 0
  objcCallback : Pointer := 0
  tag : String := ""
  jsCallback : Pointer := 0
  deriving DecidableEq, Repr

/-- `observer` in the Android build. -/
structure AndroidObserver where
  func : Pointer := 0
  className : String := ""
  tag : String := ""
  jsCallback : Pointer := 0
  deriving DecidableEq, Repr

/-- `_observers`. -/
structure ObserverTable (α : Type) where
  observers : Std.ExtTreeMap String (List α)

namespace ObserverTable

section Conditions

variable {α : Type}

theorem getD_of_mem_toList {m : Std.ExtTreeMap String (List α)} {entry : String × List α}
    (h : entry ∈ m.toList) (fallback : List α) : m.getD entry.1 fallback = entry.2 := by
  have hget := Std.ExtTreeMap.mem_toList_iff_getElem?_eq_some.mp h
  rw [Std.ExtTreeMap.getD_eq_getD_getElem?, hget]
  rfl

/-- `_observers[name]`. -/
def under (t : ObserverTable α) (name : String) : List α := t.observers.getD name []

/-- `_observers[name].push_back(o)`. -/
def add (t : ObserverTable α) (name : String) (o : α) : ObserverTable α :=
  ⟨t.observers.insert name (t.under name ++ [o])⟩

def removeObserverByCondition (t : ObserverTable α) (name : String) (checker : α → Bool) :
    Option (ObserverTable α) :=
  (eraseByCondition checker (t.under name)).map fun obs => ⟨t.observers.insert name obs⟩

/-- The loop variable is a copy of the entry. -/
def removeAllObserversByCondition (t : ObserverTable α) (checker : α → Bool) :
    Option (ObserverTable α) :=
  if ∀ entry ∈ t.observers.toList, (eraseByCondition checker entry.2).isSome then some t else none

theorem under_insert (t : ObserverTable α) (name name' : String) (obs : List α) :
    under ⟨t.observers.insert name obs⟩ name' = if name = name' then obs else t.under name' := by
  simp [under, Std.ExtTreeMap.getD_insert]

theorem under_of_mem_toList {t : ObserverTable α} {entry : String × List α}
    (h : entry ∈ t.observers.toList) : t.under entry.1 = entry.2 := getD_of_mem_toList h []

theorem forall_mem_under_iff {t : ObserverTable α} {P : α → Prop} :
    (∀ name, ∀ o ∈ t.under name, P o) ↔ ∀ entry ∈ t.observers.toList, ∀ o ∈ entry.2, P o := by
  constructor
  · intro h entry hentry
    rw [← under_of_mem_toList hentry]
    exact h entry.1
  · intro h name o ho
    cases hget : t.observers[name]? with
    | none =>
        rw [under, Std.ExtTreeMap.getD_eq_getD_getElem?, hget] at ho
        cases ho
    | some obs =>
        have hmem := Std.ExtTreeMap.mem_toList_iff_getElem?_eq_some.mpr hget
        rw [under_of_mem_toList hmem] at ho
        exact h _ hmem o ho

/-- With two matches or more, what is left is not the filtered vector. -/
theorem countP_le_one_of_eraseByCondition {checker : α → Bool} {l : List α}
    (h : eraseByCondition checker l = some (l.filter fun o => !checker o)) :
    l.countP checker ≤ 1 := by
  by_contra hcount
  have hlost := countP_lt_of_eraseByCondition h (by omega)
  rw [List.countP_filter] at hlost
  simp at hlost

/-- The table after a removal under `name` is the one that a filter gives. -/
def FilteredUnder (t t' : ObserverTable α) (name : String) (checker : α → Bool) : Prop :=
  t'.under name = (t.under name).filter (fun o => !checker o) ∧
    ∀ name' ≠ name, t'.observers[name']? = t.observers[name']?

theorem filteredUnder_insert_iff {t : ObserverTable α} {name : String} {checker : α → Bool}
    {obs : List α} :
    t.FilteredUnder ⟨t.observers.insert name obs⟩ name checker ↔
      obs = (t.under name).filter fun o => !checker o := by
  rw [FilteredUnder, under_insert, if_pos rfl]
  refine and_iff_left fun name' hname => ?_
  rw [Std.ExtTreeMap.getElem?_insert, if_neg]
  exact fun h => hname (Std.LawfulEqCmp.eq_of_compare h).symm

theorem removeObserverByCondition_filtered_iff (t : ObserverTable α) (name : String)
    (checker : α → Bool) :
    (∃ t', t.removeObserverByCondition name checker = some t' ∧ t.FilteredUnder t' name checker) ↔
      (t.under name).countP checker ≤ 1 := by
  constructor
  · rintro ⟨t', hremove, hfiltered⟩
    obtain ⟨obs, hobs, rfl⟩ := Option.map_eq_some_iff.mp hremove
    rw [filteredUnder_insert_iff.mp hfiltered] at hobs
    exact countP_le_one_of_eraseByCondition hobs
  · intro hcount
    refine ⟨_, ?_, filteredUnder_insert_iff.mpr rfl⟩
    rw [removeObserverByCondition, eraseByCondition_of_countP_le_one hcount, Option.map_some]

theorem removeAllObserversByCondition_eq_self {t t' : ObserverTable α} {checker : α → Bool}
    (h : t.removeAllObserversByCondition checker = some t') : t' = t := by
  rw [removeAllObserversByCondition] at h
  split_ifs at h
  exact (Option.some.inj h).symm

theorem removeAllObserversByCondition_of_forall {t : ObserverTable α} {checker : α → Bool}
    (h : ∀ name, ∀ o ∈ t.under name, checker o = false) :
    t.removeAllObserversByCondition checker = some t := by
  refine if_pos fun entry hentry => ?_
  rw [eraseByCondition, delIndexs_eq_nil_iff.mpr (forall_mem_under_iff.mp h entry hentry)]
  rfl

theorem removeAllObserversByCondition_filtered_iff (t : ObserverTable α) (checker : α → Bool) :
    (∃ t', t.removeAllObserversByCondition checker = some t' ∧
      ∀ name, t'.under name = (t.under name).filter fun o => !checker o) ↔
      ∀ name, ∀ o ∈ t.under name, checker o = false := by
  constructor
  · rintro ⟨t', hremove, hfiltered⟩ name o ho
    rw [removeAllObserversByCondition_eq_self hremove] at hfiltered
    rw [hfiltered name] at ho
    simpa using (List.mem_filter.mp ho).2
  · intro h
    refine ⟨t, removeAllObserversByCondition_of_forall h, fun name => ?_⟩
    exact (filter_not_eq_self (h name)).symm

end Conditions

section Ios

def addObserver (t : ObserverTable IosObserver) (name : String) (observer selector : Pointer) :
    ObserverTable IosObserver :=
  t.add name { objcTarget := observer, objcCallback := selector }

def removeObserver (t : ObserverTable IosObserver) (name : String) (target selector : Pointer) :
    Option (ObserverTable IosObserver) :=
  t.removeObserverByCondition name fun o => o.objcTarget = target && o.objcCallback = selector

/-- The name is not used. -/
def removeAllObserversForTarget (t : ObserverTable IosObserver) (_name : String)
    (target : Pointer) : Option (ObserverTable IosObserver) :=
  t.removeAllObserversByCondition fun o => o.objcTarget = target

end Ios

section Android

def addObserverForJni (t : ObserverTable AndroidObserver) (name className : String) :
    ObserverTable AndroidObserver :=
  t.add name { className := className }

def removeObserverForJni (t : ObserverTable AndroidObserver) (name className : String) :
    Option (ObserverTable AndroidObserver) :=
  t.removeObserverByCondition name fun o => o.className = className

def removeAllObserversForClassJni (t : ObserverTable AndroidObserver) (className : String) :
    Option (ObserverTable AndroidObserver) :=
  t.removeAllObserversByCondition fun o => o.className = className

def addObserverForJs (t : ObserverTable AndroidObserver) (name tag : String)
    (callback : Pointer) : ObserverTable AndroidObserver :=
  t.add name { tag := tag, jsCallback := callback }

def removeObserverForJs (t : ObserverTable AndroidObserver) (name tag : String) :
    Option (ObserverTable AndroidObserver) :=
  t.removeObserverByCondition name fun o => o.tag = tag

end Android

def sharedTag : ObserverTable AndroidObserver :=
  ((addObserverForJs ⟨∅⟩ "login" "page" 1).addObserverForJs "login" "page" 2).addObserverForJs
    "login" "menu" 3

/-- The second index is taken after the first erasure: the other tag goes, and one of the
two callbacks stays. -/
theorem not_filtered_sharedTag :
    ¬ ∃ t', sharedTag.removeObserverByCondition "login" (fun o => o.tag = "page") = some t' ∧
      sharedTag.FilteredUnder t' "login" fun o => o.tag = "page" := by
  rintro ⟨t', hremove, hfiltered, _⟩
  have hleft : (sharedTag.removeObserverByCondition "login" fun o => o.tag = "page").map
      (·.under "login") = some [{ tag := "page", jsCallback := 2 }] := by decide
  have hmeant : (sharedTag.under "login").filter (fun o => !decide (o.tag = "page")) =
      [{ tag := "menu", jsCallback := 3 }] := by decide
  rw [hremove, Option.map_some, hfiltered, hmeant] at hleft
  exact absurd hleft (by decide)

theorem filtered_sharedTag_menu :
    ∃ t', sharedTag.removeObserverByCondition "login" (fun o => o.tag = "menu") = some t' ∧
      sharedTag.FilteredUnder t' "login" fun o => o.tag = "menu" :=
  (removeObserverByCondition_filtered_iff sharedTag "login" _).mpr (by decide)

def oneActivity : ObserverTable AndroidObserver :=
  (addObserverForJni ⟨∅⟩ "login" "Main").addObserverForJni "logout" "Main"

/-- The erasures reach only the copies. -/
theorem not_filtered_oneActivity :
    ¬ ∃ t', oneActivity.removeAllObserversByCondition (fun o => o.className = "Main") = some t' ∧
      ∀ name, t'.under name =
        (oneActivity.under name).filter fun o => !decide (o.className = "Main") := by
  rintro ⟨t', hremove, hfiltered⟩
  have hleft : (oneActivity.removeAllObserversByCondition fun o => o.className = "Main").map
      (·.under "login") = some [{ className := "Main" }] := by decide
  have hmeant : (oneActivity.under "login").filter (fun o => !decide (o.className = "Main")) =
      [] := by decide
  rw [hremove, Option.map_some, hfiltered, hmeant] at hleft
  exact absurd hleft (by decide)

theorem filtered_oneActivity_other :
    ∃ t', oneActivity.removeAllObserversByCondition (fun o => o.className = "Other") = some t' ∧
      ∀ name, t'.under name =
        (oneActivity.under name).filter fun o => !decide (o.className = "Other") :=
  (removeAllObserversByCondition_filtered_iff oneActivity _).mpr
    (forall_mem_under_iff.mpr (by decide))

/-- The activity is registered at most once under every name. -/
def Single (t : ObserverTable AndroidObserver) (className : String) : Prop :=
  ∀ entry ∈ t.observers.toList, entry.2.countP (fun o => o.className = className) ≤ 1

instance (t : ObserverTable AndroidObserver) (className : String) :
    Decidable (t.Single className) :=
  inferInstanceAs (Decidable (∀ _ ∈ _, _))

theorem single_iff {t : ObserverTable AndroidObserver} {className : String} :
    t.Single className ↔
      ∀ name, (t.under name).countP (fun o => o.className = className) ≤ 1 := by
  constructor
  · intro h name
    cases hget : t.observers[name]? with
    | none => simp [under, Std.ExtTreeMap.getD_eq_getD_getElem?, hget]
    | some obs =>
        have hmem := Std.ExtTreeMap.mem_toList_iff_getElem?_eq_some.mpr hget
        rw [under_of_mem_toList hmem]
        exact h _ hmem
  · intro h entry hentry
    rw [← under_of_mem_toList hentry]
    exact h entry.1

theorem removeObserverForJni_eq_some_iff {t t' : ObserverTable AndroidObserver}
    {name className : String} :
    t.removeObserverForJni name className = some t' ↔
      ∃ obs, eraseByCondition (fun o : AndroidObserver => decide (o.className = className))
        (t.under name) = some obs ∧ ⟨t.observers.insert name obs⟩ = t' :=
  Option.map_eq_some_iff

/-- Removals never add or reorder registrations. -/
theorem under_sublist_of_removeObserverForJni {t t' : ObserverTable AndroidObserver}
    {name className : String} (h : t.removeObserverForJni name className = some t')
    (name' : String) : (t'.under name').Sublist (t.under name') := by
  obtain ⟨obs, hobs, rfl⟩ := removeObserverForJni_eq_some_iff.mp h
  rw [under_insert]
  split_ifs with hname
  · subst hname
    exact sublist_of_eraseByCondition hobs
  · exact List.Sublist.refl _

end ObserverTable

end Notification

end UnifyFramework
