import UnifyFramework.Notification.ObserverTable
import UnifyFramework.Transition.Run

/-!
# Notification observers of the activities

`MethodsJni` keeps for every activity its receiver and the names it has asked for, and
registers the activity in the native table. The list of names grows with every
registration and is never shortened by `removeNotificationObserver`;
`removeAllNotifications` goes through it and removes the activity from the native table
name by name, because the native removal of all observers works on copies.

The clean-up is right as long as the activity stands at most once under every name. Where
it stands twice, the native removal takes an observer of another activity, or its
behaviour is undefined.
-/

namespace UnifyFramework

namespace Notification

open Transition

abbrev NotificationCenter := ObserverTable AndroidObserver

structure MethodsJni (ρ : Type) where
  mNotificationMap : Std.ExtTreeMap String ρ
  mNotificationList : Std.ExtTreeMap String (List String)
  center : NotificationCenter

inductive NotificationCall (ρ : Type)
  | addNotificationObserver (name activityId : String) (receiver : ρ)
  | removeNotificationObserver (name activityId : String)
  | removeAllNotifications (activityId : String)

/-- The loop of `removeAllNotifications` over the names. -/
def NotificationCenter.removeEach (activityId : String) :
    List String → NotificationCenter → Option NotificationCenter
  | [], c => some c
  | name :: list, c => (c.removeObserverForJni name activityId).bind (removeEach activityId list)

namespace MethodsJni

variable {ρ : Type}

def init : MethodsJni ρ := ⟨∅, ∅, ⟨∅⟩⟩

/-- The first part of `addNotificationObserver`: the entries of a new activity. -/
def enroll (s : MethodsJni ρ) (activityId : String) (receiver : ρ) : MethodsJni ρ :=
  if activityId ∈ s.mNotificationMap then s
  else
    { s with
      mNotificationMap := s.mNotificationMap.insert activityId receiver
      mNotificationList := s.mNotificationList.insert activityId [] }

def register (s : MethodsJni ρ) (name activityId : String) (list : List String) : MethodsJni ρ :=
  { s with
    mNotificationList := s.mNotificationList.insert activityId (list ++ [name])
    center := s.center.addObserverForJni name activityId }

/-- `none` for the null pointer exception of an activity without a list of names. -/
def addNotificationObserver (s : MethodsJni ρ) (name activityId : String) (receiver : ρ) :
    Option (MethodsJni ρ) :=
  (s.enroll activityId receiver).mNotificationList[activityId]?.map
    ((s.enroll activityId receiver).register name activityId)

def removeNotificationObserver (s : MethodsJni ρ) (name activityId : String) :
    Option (MethodsJni ρ) :=
  (s.center.removeObserverForJni name activityId).map fun center => { s with center := center }

def removeAllNotifications (s : MethodsJni ρ) (activityId : String) : Option (MethodsJni ρ) :=
  -- without a list, the loop and the removal of the list are skipped
  ((s.center.removeEach activityId (s.mNotificationList.getD activityId [])).bind
    fun center => center.removeAllObserversForClassJni activityId).map fun center =>
      ⟨s.mNotificationMap.erase activityId, s.mNotificationList.erase activityId, center⟩

def step (s : MethodsJni ρ) : NotificationCall ρ → Option (MethodsJni ρ)
  | .addNotificationObserver name activityId receiver =>
      s.addNotificationObserver name activityId receiver
  | .removeNotificationObserver name activityId => s.removeNotificationObserver name activityId
  | .removeAllNotifications activityId => s.removeAllNotifications activityId

structure Cleaned (activityId : String) (s s' : MethodsJni ρ) : Prop where
  unregistered : ∀ name, ∀ o ∈ s'.center.under name, o.className ≠ activityId
  map : activityId ∉ s'.mNotificationMap
  list : activityId ∉ s'.mNotificationList
  others : ∀ name, (s'.center.under name).filter (fun o => o.className ≠ activityId) =
    (s.center.under name).filter fun o => o.className ≠ activityId

def CleanedAt (s : MethodsJni ρ) : NotificationCall ρ → Prop
  | .removeAllNotifications activityId =>
      ∃ s', s.removeAllNotifications activityId = some s' ∧ Cleaned activityId s s'
  | _ => True

/-- The activity that is cleaned up stands at most once under every name. -/
def SingleAt (s : MethodsJni ρ) : NotificationCall ρ → Prop
  | .removeAllNotifications activityId => s.center.Single activityId
  | _ => True

instance decidableSingleAt (s : MethodsJni ρ) :
    (call : NotificationCall ρ) → Decidable (s.SingleAt call)
  | .addNotificationObserver _ _ _ => inferInstanceAs (Decidable True)
  | .removeNotificationObserver _ _ => inferInstanceAs (Decidable True)
  | .removeAllNotifications activityId =>
      inferInstanceAs (Decidable (ObserverTable.Single _ activityId))

end MethodsJni

namespace NotificationCenter

open ObserverTable

theorem under_sublist_of_removeEach {activityId : String} {list : List String}
    {c c' : NotificationCenter} (h : c.removeEach activityId list = some c') (name : String) :
    (c'.under name).Sublist (c.under name) := by
  induction list generalizing c with
  | nil =>
      cases h
      exact List.Sublist.refl _
  | cons first list ih =>
      obtain ⟨m, hm, hrest⟩ := Option.bind_eq_some_iff.mp h
      exact (ih hrest).trans (under_sublist_of_removeObserverForJni hm name)

theorem under_of_removeObserverForJni_ne {c c' : NotificationCenter}
    {name name' className : String} (h : c.removeObserverForJni name className = some c')
    (hne : name ≠ name') : c'.under name' = c.under name' := by
  obtain ⟨obs, _, rfl⟩ := removeObserverForJni_eq_some_iff.mp h
  rw [under_insert, if_neg hne]

/-- What is left under a name of the list when every name has at most one registration. -/
theorem exists_removeEach {activityId : String} (list : List String) {c : NotificationCenter}
    (h : c.Single activityId) :
    ∃ c', c.removeEach activityId list = some c' ∧
      (∀ name ∈ list, c'.under name =
        (c.under name).filter fun o => o.className ≠ activityId) ∧
      ∀ name, name ∉ list → c'.under name = c.under name := by
  induction list generalizing c with
  | nil => exact ⟨c, rfl, by simp, fun _ _ => rfl⟩
  | cons first list ih =>
      have hcount := single_iff.mp h first
      have hfilter := eraseByCondition_of_countP_le_one hcount
      have hremove := removeObserverForJni_eq_some_iff.mpr ⟨_, hfilter, rfl⟩
      have hunder : ∀ name, under ⟨c.observers.insert first _⟩ name = _ :=
        fun name => under_insert c first name
          ((c.under first).filter fun o => !decide (o.className = activityId))
      have hsingle : Single ⟨c.observers.insert first
          ((c.under first).filter fun o => !decide (o.className = activityId))⟩ activityId := by
        refine single_iff.mpr fun name => ?_
        exact Nat.le_trans (under_sublist_of_removeObserverForJni hremove name).countP_le
          (single_iff.mp h name)
      obtain ⟨c', hc', hin, hout⟩ := ih hsingle
      refine ⟨c', ?_, ?_, ?_⟩
      · rw [removeEach, hremove]
        exact hc'
      · intro name hname
        by_cases hlist : name ∈ list
        · rw [hin name hlist, hunder name]
          split_ifs with heq
          · subst heq
            simp
          · rfl
        · rcases List.mem_cons.mp hname with rfl | hmem
          · rw [hout name hlist, hunder name, if_pos rfl]
            simp
          · exact absurd hmem hlist
      · intro name hname
        have hne : first ≠ name := fun heq => hname (heq ▸ List.mem_cons_self)
        have hlist : name ∉ list := fun hmem => hname (List.mem_cons_of_mem _ hmem)
        rw [hout name hlist, hunder name, if_neg hne]

/-- Another activity loses a registration under a name of the list that has two of the
activity that is removed. -/
theorem countP_lt_of_removeEach {activityId name : String} {list : List String}
    {c c' : NotificationCenter} (h : c.removeEach activityId list = some c') (hname : name ∈ list)
    (hcount : 2 ≤ (c.under name).countP fun o => o.className = activityId) :
    (c'.under name).countP (fun o => !decide (o.className = activityId)) <
      (c.under name).countP fun o => !decide (o.className = activityId) := by
  induction list generalizing c with
  | nil => cases hname
  | cons first list ih =>
      obtain ⟨m, hm, hrest⟩ := Option.bind_eq_some_iff.mp h
      by_cases heq : first = name
      · subst heq
        obtain ⟨obs, hobs, rfl⟩ := removeObserverForJni_eq_some_iff.mp hm
        have hlost := countP_lt_of_eraseByCondition hobs hcount
        have hle := (under_sublist_of_removeEach hrest first).countP_le
          (p := fun o => !decide (o.className = activityId))
        rw [under_insert, if_pos rfl] at hle
        exact Nat.lt_of_le_of_lt hle hlost
      · have hmem : name ∈ list := (List.mem_cons.mp hname).resolve_left (Ne.symm heq)
        have hsame := under_of_removeObserverForJni_ne hm heq
        rw [← hsame] at hcount ⊢
        exact ih hrest hmem hcount

/-- The copies of a table without registrations of the activity are not touched. -/
theorem removeAllObserversForClassJni_of_single {c : NotificationCenter} {className : String}
    (h : c.Single className) : c.removeAllObserversForClassJni className = some c := by
  refine if_pos fun entry hentry => ?_
  rw [eraseByCondition_of_countP_le_one (h entry hentry)]
  rfl

end NotificationCenter

namespace MethodsJni

variable {ρ : Type}

/-- The Java maps have the same activities, and a registration is under a name of the list
of its activity. -/
structure Tracked (s : MethodsJni ρ) : Prop where
  keys : ∀ activityId, activityId ∈ s.mNotificationMap ↔ activityId ∈ s.mNotificationList
  named : ∀ name, ∀ o ∈ s.center.under name,
    name ∈ s.mNotificationList.getD o.className []

theorem tracked_init : (init : MethodsJni ρ).Tracked :=
  ⟨by simp [init], by simp [init, ObserverTable.under]⟩

theorem removeAllNotifications_eq_some_iff {s s' : MethodsJni ρ} {activityId : String} :
    s.removeAllNotifications activityId = some s' ↔
      ∃ m c, s.center.removeEach activityId (s.mNotificationList.getD activityId []) = some m ∧
        m.removeAllObserversForClassJni activityId = some c ∧
        ⟨s.mNotificationMap.erase activityId, s.mNotificationList.erase activityId, c⟩ = s' := by
  simp [removeAllNotifications, Option.map_eq_some_iff, Option.bind_eq_some_iff]

theorem Tracked.removeNotificationObserver {s s' : MethodsJni ρ} (h : s.Tracked)
    {name activityId : String} (hs' : s.removeNotificationObserver name activityId = some s') :
    s'.Tracked := by
  obtain ⟨c, hc, rfl⟩ := Option.map_eq_some_iff.mp hs'
  refine ⟨h.keys, fun name' o ho => h.named name' o ?_⟩
  exact (ObserverTable.under_sublist_of_removeObserverForJni hc name').subset ho

theorem Tracked.enroll {s : MethodsJni ρ} (h : s.Tracked) (activityId : String) (receiver : ρ) :
    (s.enroll activityId receiver).Tracked := by
  by_cases hmem : activityId ∈ s.mNotificationMap
  · rwa [MethodsJni.enroll, if_pos hmem]
  · have hlist : activityId ∉ s.mNotificationList := fun hin => hmem ((h.keys activityId).mpr hin)
    -- an activity without a list has the empty one before and after
    have hgetD : ∀ id, (s.mNotificationList.insert activityId []).getD id [] =
        s.mNotificationList.getD id [] := by
      intro id
      by_cases heq : activityId = id
      · subst heq
        rw [Std.ExtTreeMap.getD_insert_self, Std.ExtTreeMap.getD_eq_fallback hlist]
      · rw [Std.ExtTreeMap.getD_insert, if_neg (by simpa using heq)]
    rw [MethodsJni.enroll, if_neg hmem]
    refine ⟨fun id => ?_, fun name o ho => ?_⟩
    · simp only [Std.ExtTreeMap.mem_insert, h.keys id]
    · rw [hgetD]
      exact h.named name o ho

theorem Tracked.register {s : MethodsJni ρ} (h : s.Tracked) {name activityId : String}
    {list : List String} (hlist : s.mNotificationList[activityId]? = some list) :
    (s.register name activityId list).Tracked := by
  have hmem : activityId ∈ s.mNotificationList := by
    rw [Std.ExtTreeMap.mem_iff_isSome_getElem?, hlist]
    rfl
  have hold : s.mNotificationList.getD activityId [] = list := by
    rw [Std.ExtTreeMap.getD_eq_getD_getElem?, hlist]
    rfl
  -- names are only added to a list
  have hgrows : ∀ id x, x ∈ s.mNotificationList.getD id [] →
      x ∈ (s.mNotificationList.insert activityId (list ++ [name])).getD id [] := by
    intro id x hx
    by_cases heq : activityId = id
    · subst heq
      rw [Std.ExtTreeMap.getD_insert_self]
      rw [hold] at hx
      exact List.mem_append_left _ hx
    · rwa [Std.ExtTreeMap.getD_insert, if_neg (by simpa using heq)]
  refine ⟨fun id => ?_, fun name' o ho => ?_⟩
  · change id ∈ s.mNotificationMap ↔ id ∈ s.mNotificationList.insert activityId (list ++ [name])
    rw [h.keys id, Std.ExtTreeMap.mem_insert]
    constructor
    · exact Or.inr
    · rintro (heq | hin)
      · rwa [← Std.LawfulEqCmp.eq_of_compare heq]
      · exact hin
  · change o ∈ ObserverTable.under ⟨_⟩ name' at ho
    rw [ObserverTable.under_insert] at ho
    split_ifs at ho with hname
    · subst hname
      rcases List.mem_append.mp ho with hin | hin
      · exact hgrows _ _ (h.named name o hin)
      · cases List.mem_singleton.mp hin
        change name ∈ (s.mNotificationList.insert activityId (list ++ [name])).getD activityId []
        rw [Std.ExtTreeMap.getD_insert_self]
        exact List.mem_append_right _ List.mem_cons_self
    · exact hgrows _ _ (h.named name' o ho)

theorem Tracked.addNotificationObserver {s s' : MethodsJni ρ} (h : s.Tracked)
    {name activityId : String} {receiver : ρ}
    (hs' : s.addNotificationObserver name activityId receiver = some s') : s'.Tracked := by
  obtain ⟨list, hlist, rfl⟩ := Option.map_eq_some_iff.mp hs'
  exact (h.enroll activityId receiver).register hlist

theorem Tracked.cleaned_of_single {s : MethodsJni ρ} (h : s.Tracked) {activityId : String}
    (hsingle : s.center.Single activityId) :
    ∃ s', s.removeAllNotifications activityId = some s' ∧ Cleaned activityId s s' := by
  obtain ⟨c, hc, hin, hout⟩ :=
    NotificationCenter.exists_removeEach (s.mNotificationList.getD activityId []) hsingle
  have hsingle' : c.Single activityId := by
    refine ObserverTable.single_iff.mpr fun name => ?_
    exact Nat.le_trans (NotificationCenter.under_sublist_of_removeEach hc name).countP_le
      (ObserverTable.single_iff.mp hsingle name)
  have hall := NotificationCenter.removeAllObserversForClassJni_of_single hsingle'
  -- a name outside the list has no registration of the activity
  have hunder : ∀ name, c.under name =
      (s.center.under name).filter fun o => o.className ≠ activityId := by
    intro name
    by_cases hname : name ∈ s.mNotificationList.getD activityId []
    · exact hin name hname
    · rw [hout name hname]
      refine (List.filter_eq_self.mpr fun o ho => ?_).symm
      refine decide_eq_true fun heq => hname ?_
      rw [← heq]
      exact h.named name o ho
  refine ⟨_, removeAllNotifications_eq_some_iff.mpr ⟨c, c, hc, hall, rfl⟩, ?_, ?_, ?_, ?_⟩
  · intro name o ho
    change o ∈ c.under name at ho
    rw [hunder name] at ho
    simpa using (List.mem_filter.mp ho).2
  · simp
  · simp
  · intro name
    change (c.under name).filter _ = _
    rw [hunder name, List.filter_filter]
    simp

theorem Tracked.single_of_cleaned {s s' : MethodsJni ρ} (h : s.Tracked) {activityId : String}
    (hs' : s.removeAllNotifications activityId = some s') (hcleaned : Cleaned activityId s s') :
    s.center.Single activityId := by
  obtain ⟨m, c, hm, hc, rfl⟩ := removeAllNotifications_eq_some_iff.mp hs'
  have hcm := ObserverTable.removeAllObserversByCondition_eq_self hc
  subst hcm
  refine ObserverTable.single_iff.mpr fun name => ?_
  by_contra hcount
  have htwo : 2 ≤ (s.center.under name).countP fun o => o.className = activityId := by omega
  obtain ⟨o, ho, hclass⟩ := List.countP_pos_iff.mp (Nat.lt_of_lt_of_le Nat.zero_lt_two htwo)
  have hname : name ∈ s.mNotificationList.getD activityId [] := by
    have hnamed := h.named name o ho
    rwa [of_decide_eq_true hclass] at hnamed
  have hlost := NotificationCenter.countP_lt_of_removeEach hm hname htwo
  have hothers := congrArg List.length (hcleaned.others name)
  simp only [ne_eq, decide_not, ← List.countP_eq_length_filter] at hothers
  exact absurd hothers (Nat.ne_of_lt hlost)

theorem Tracked.cleanedAt_iff_singleAt {s : MethodsJni ρ} (h : s.Tracked)
    (call : NotificationCall ρ) : s.CleanedAt call ↔ s.SingleAt call := by
  cases call with
  | addNotificationObserver name activityId receiver => rfl
  | removeNotificationObserver name activityId => rfl
  | removeAllNotifications activityId =>
      constructor
      · rintro ⟨s', hs', hcleaned⟩
        exact h.single_of_cleaned hs' hcleaned
      · exact h.cleaned_of_single

theorem Tracked.removeAllNotifications {s s' : MethodsJni ρ} (h : s.Tracked) {activityId : String}
    (hsingle : s.center.Single activityId)
    (hs' : s.removeAllNotifications activityId = some s') : s'.Tracked := by
  obtain ⟨t, ht, hcleaned⟩ := h.cleaned_of_single hsingle
  cases hs'.symm.trans ht
  obtain ⟨m, c, hm, hc, rfl⟩ := removeAllNotifications_eq_some_iff.mp hs'
  have hcm := ObserverTable.removeAllObserversByCondition_eq_self hc
  subst hcm
  refine ⟨fun id => ?_, fun name o ho => ?_⟩
  · simp only [Std.ExtTreeMap.mem_erase, h.keys id]
  · have hne : activityId ≠ o.className := (hcleaned.unregistered name o ho).symm
    change name ∈ (s.mNotificationList.erase activityId).getD o.className []
    rw [Std.ExtTreeMap.getD_erase, if_neg (by simpa using hne)]
    exact h.named name o ((NotificationCenter.under_sublist_of_removeEach hm name).subset ho)

theorem tracked_step (s : MethodsJni ρ) (call : NotificationCall ρ) (s' : MethodsJni ρ)
    (h : s.Tracked) (hsingle : s.SingleAt call) (hs' : s.step call = some s') : s'.Tracked := by
  cases call with
  | addNotificationObserver name activityId receiver => exact h.addNotificationObserver hs'
  | removeNotificationObserver name activityId => exact h.removeNotificationObserver hs'
  | removeAllNotifications activityId => exact h.removeAllNotifications hsingle hs'

/-- Every clean-up of a run is right exactly if no activity is cleaned up that stands twice
under a name. -/
theorem cleanedAt_iff_singleAt_of_run (calls : List (NotificationCall ρ)) :
    Along step CleanedAt (init : MethodsJni ρ) calls ↔ Along step SingleAt init calls :=
  along_congr (fun _ call h => h.cleanedAt_iff_singleAt call) tracked_step calls tracked_init

/-- Two activities share a name, and one of them also waits for another name. -/
theorem cleanedAt_sharedName :
    Along step CleanedAt (init : MethodsJni Unit)
      [.addNotificationObserver "login" "A" (), .addNotificationObserver "login" "B" (),
        .addNotificationObserver "logout" "A" (), .removeAllNotifications "A",
        .removeAllNotifications "B"] :=
  (cleanedAt_iff_singleAt_of_run _).mpr (by decide)

/-- The activity `A` registers twice: its clean-up also removes the registration of `B`. -/
theorem not_cleanedAt_registeredTwice :
    ¬ Along step CleanedAt (init : MethodsJni Unit)
        [.addNotificationObserver "login" "A" (), .addNotificationObserver "login" "A" (),
          .addNotificationObserver "login" "B" (), .removeAllNotifications "A"] ∧
      (run step (init : MethodsJni Unit)
        [.addNotificationObserver "login" "A" (), .addNotificationObserver "login" "A" (),
          .addNotificationObserver "login" "B" ()]).map (fun s => s.center.under "login") =
        some [{ className := "A" }, { className := "A" }, { className := "B" }] ∧
      (run step (init : MethodsJni Unit)
        [.addNotificationObserver "login" "A" (), .addNotificationObserver "login" "A" (),
          .addNotificationObserver "login" "B" (), .removeAllNotifications "A"]).map
          (fun s => s.center.under "login") = some [] := by
  refine ⟨fun h => ?_, by decide, by decide⟩
  have hsingle := (along_congr (fun _ call h => Tracked.cleanedAt_iff_singleAt h call)
    tracked_step _ tracked_init).mp h
  exact absurd hsingle (by decide)

end MethodsJni

end Notification

end UnifyFramework
