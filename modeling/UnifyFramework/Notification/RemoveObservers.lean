import Mathlib.Data.Nat.Init
import UnifyFramework.Notification.ObserverTable

/-!
# Removal of observers by target on iOS

`removeObservers` erases from the vector inside the range-based `for` over that vector, and
repeats in every pass all the indices found so far. After the first erasure the iterators
that the loop holds are invalid, so that by the standard already the next comparison with
the end is undefined. The usual vector iterators are pointers and keep their positions. The
loop then goes on to the old end; as the vector is shorter by then, it reads an observer
that does not exist any more, unless the first match was the last observer. Both readings
are given here, with `none` for what is undefined.
-/

namespace UnifyFramework

namespace Notification

/-- What `erase` does to the iterators of a loop: by the standard those behind the erased
observer, and the end, become invalid; as pointers they keep their positions. -/
inductive Iterators
  | standard
  | pointers
  deriving DecidableEq, Repr

/-- The vector and the local variables of the loop; `i` is also where the iterator of the
loop stands. -/
structure Iteration (α : Type) where
  obs : List α
  i : ℕ
  delIndexs : List ℕ
  valid : Bool

section Iterating

variable {α : Type} {kind : Iterators} {checker : α → Bool}

def Iteration.pass (kind : Iterators) (checker : α → Bool) (s : Iteration α) :
    Option (Iteration α) :=
  if s.valid then
    s.obs[s.i]?.bind fun o =>
      let delIndexs := if checker o then s.delIndexs ++ [s.i] else s.delIndexs
      (eraseIndexs delIndexs s.obs).map fun obs =>
        ⟨obs, s.i + 1, delIndexs, kind = .pointers || delIndexs.isEmpty⟩
  else none

def passes (kind : Iterators) (checker : α → Bool) (obs : List α) : ℕ → Option (Iteration α)
  | 0 => some ⟨obs, 0, [], true⟩
  | n + 1 => (passes kind checker obs n).bind (Iteration.pass kind checker)

/-- The loop ends where the end of the vector was at its start, if the comparison with that
end is still defined. -/
def eraseIterating (kind : Iterators) (checker : α → Bool) (obs : List α) : Option (List α) :=
  (passes kind checker obs obs.length).bind fun s => if s.valid then some s.obs else none

theorem passes_succ_eq_some_iff {obs : List α} {n : ℕ} {s' : Iteration α} :
    passes kind checker obs (n + 1) = some s' ↔
      ∃ s, passes kind checker obs n = some s ∧ s.pass kind checker = some s' :=
  Option.bind_eq_some_iff

theorem Iteration.pass_eq_some {s s' : Iteration α} (h : s.pass kind checker = some s') :
    s.valid = true ∧ s.i < s.obs.length ∧ s'.i = s.i + 1 ∧ s'.obs.length ≤ s.obs.length := by
  rw [Iteration.pass] at h
  split_ifs at h with hvalid
  obtain ⟨o, ho, hrest⟩ := Option.bind_eq_some_iff.mp h
  obtain ⟨obs, hobs, rfl⟩ := Option.map_eq_some_iff.mp hrest
  exact ⟨hvalid, (List.getElem?_eq_some_iff.mp ho).1, rfl, (sublist_of_eraseIndexs hobs).length_le⟩

theorem i_of_passes {obs : List α} {n : ℕ} {s : Iteration α}
    (h : passes kind checker obs n = some s) : s.i = n := by
  induction n generalizing s with
  | zero =>
      cases h
      rfl
  | succ n ih =>
      obtain ⟨m, hm, hs⟩ := passes_succ_eq_some_iff.mp h
      rw [(Iteration.pass_eq_some hs).2.2.1, ih hm]

/-- Without a match nothing is erased. -/
theorem passes_of_forall {obs : List α} {n : ℕ} (hn : n ≤ obs.length)
    (h : ∀ o ∈ obs.take n, checker o = false) :
    passes kind checker obs n = some ⟨obs, n, [], true⟩ := by
  induction n with
  | zero => rfl
  | succ n ih =>
      have htake : obs.take (n + 1) = obs.take n ++ [obs[n]] := List.take_succ_eq_append_getElem hn
      rw [htake, List.forall_mem_append, List.forall_mem_singleton] at h
      rw [passes, ih (Nat.le_of_succ_le hn) h.1, Option.bind_some, Iteration.pass, if_pos rfl,
        List.getElem?_eq_getElem hn, Option.bind_some]
      simp [h.2, eraseIndexs]

theorem passes_first_match {before after : List α} {o : α} (ho : checker o = true)
    (hbefore : ∀ x ∈ before, checker x = false) :
    passes kind checker (before ++ o :: after) (before.length + 1) =
      some ⟨before ++ after, before.length + 1, [before.length], kind = .pointers⟩ := by
  have hprev : passes kind checker (before ++ o :: after) before.length =
      some ⟨before ++ o :: after, before.length, [], true⟩ := by
    apply passes_of_forall
    · simp
    · rwa [List.take_left]
  have hget : (before ++ o :: after)[before.length]? = some o := by simp
  have herase : (before ++ o :: after).eraseIdx before.length = before ++ after := by
    rw [List.eraseIdx_append_of_length_le (Nat.le_refl _), Nat.sub_self, List.eraseIdx_cons_zero]
  rw [passes, hprev, Option.bind_some, Iteration.pass, if_pos rfl, hget, Option.bind_some]
  simp [ho, eraseIndexs, herase]

theorem passes_eq_none_of_invalid {obs : List α} {n m : ℕ} {s : Iteration α}
    (h : passes kind checker obs n = some s) (hs : s.valid = false) (hm : n < m) :
    passes kind checker obs m = none := by
  induction m, hm using Nat.le_induction with
  | base => rw [passes, h, Option.bind_some, Iteration.pass, hs, if_neg Bool.false_ne_true]
  | succ m _ ih => rw [passes, ih, Option.bind_none]

/-- The vector does not grow. -/
theorem length_of_passes {obs : List α} {n m : ℕ} {s s' : Iteration α}
    (h : passes kind checker obs n = some s) (hnm : n ≤ m)
    (h' : passes kind checker obs m = some s') : s'.obs.length ≤ s.obs.length := by
  induction m, hnm using Nat.le_induction generalizing s' with
  | base =>
      have hsame : s' = s := Option.some.inj (h'.symm.trans h)
      exact Nat.le_of_eq (congrArg (fun s => s.obs.length) hsame)
  | succ m _ ih =>
      obtain ⟨mid, hmid, hs'⟩ := passes_succ_eq_some_iff.mp h'
      exact Nat.le_trans (Iteration.pass_eq_some hs').2.2.2 (ih hmid)

/-- If the vector got shorter before the last pass, that pass reads past its end. -/
theorem passes_eq_none_of_shorter {obs : List α} {n : ℕ} {s : Iteration α}
    (h : passes kind checker obs n = some s) (hs : s.obs.length < obs.length)
    (hn : n < obs.length) : passes kind checker obs obs.length = none := by
  obtain ⟨last, hlast⟩ : ∃ last, obs.length = last + 1 := ⟨obs.length - 1, by omega⟩
  by_contra hsome
  obtain ⟨s', hs'⟩ := Option.ne_none_iff_exists'.mp hsome
  rw [hlast] at hs'
  obtain ⟨mid, hmid, hpass⟩ := passes_succ_eq_some_iff.mp hs'
  have hle := length_of_passes h (by omega) hmid
  have hlt := (Iteration.pass_eq_some hpass).2.1
  rw [i_of_passes hmid] at hlt
  omega

def Harmless (checker : α → Bool) (obs : List α) : Iterators → Prop
  | .standard => ∀ o ∈ obs, checker o = false
  | .pointers => ∀ o ∈ obs.dropLast, checker o = false

instance decidableHarmless (checker : α → Bool) (obs : List α) :
    (kind : Iterators) → Decidable (Harmless checker obs kind)
  | .standard => inferInstanceAs (Decidable (∀ o ∈ obs, checker o = false))
  | .pointers => inferInstanceAs (Decidable (∀ o ∈ obs.dropLast, checker o = false))

theorem exists_first_match {l : List α} (h : ∃ o ∈ l, checker o = true) :
    ∃ before o after, l = before ++ o :: after ∧ checker o = true ∧
      ∀ x ∈ before, checker x = false := by
  obtain ⟨o, ho⟩ := Option.isSome_iff_exists.mp (List.find?_isSome.mpr h)
  obtain ⟨hcheck, before, after, hl, hbefore⟩ := List.find?_eq_some_iff_append.mp ho
  exact ⟨before, o, after, hl, hcheck, fun x hx => by simpa using hbefore x hx⟩

theorem eraseIterating_of_forall {obs : List α} (h : ∀ o ∈ obs, checker o = false) :
    eraseIterating kind checker obs = some obs := by
  have hpasses : passes kind checker obs obs.length = some ⟨obs, obs.length, [], true⟩ :=
    passes_of_forall (Nat.le_refl _) (by rwa [List.take_length])
  rw [eraseIterating, hpasses, Option.bind_some, if_pos rfl]

/-- By the standard the loop has no meaning once there is a match. -/
theorem eraseIterating_standard_eq_none {before after : List α} {o : α} (ho : checker o = true)
    (hbefore : ∀ x ∈ before, checker x = false) :
    eraseIterating .standard checker (before ++ o :: after) = none := by
  have hmatch : passes .standard checker (before ++ o :: after) (before.length + 1) =
      some ⟨before ++ after, before.length + 1, [before.length], false⟩ :=
    passes_first_match ho hbefore
  cases after with
  | nil =>
      have hlen : (before ++ [o]).length = before.length + 1 := by simp
      rw [eraseIterating, hlen, hmatch]
      rfl
  | cons x after =>
      have hlt : before.length + 1 < (before ++ o :: x :: after).length := by simp
      rw [eraseIterating, passes_eq_none_of_invalid hmatch rfl hlt, Option.bind_none]

/-- With pointers it has none unless the match is the last observer. -/
theorem eraseIterating_pointers_eq_none {before after : List α} {o : α} (ho : checker o = true)
    (hbefore : ∀ x ∈ before, checker x = false) (hafter : after ≠ []) :
    eraseIterating .pointers checker (before ++ o :: after) = none := by
  have hmatch : passes .pointers checker (before ++ o :: after) (before.length + 1) =
      some ⟨before ++ after, before.length + 1, [before.length], true⟩ :=
    passes_first_match ho hbefore
  have hpos : 0 < after.length := List.length_pos_iff.mpr hafter
  have hnone := passes_eq_none_of_shorter hmatch (by simp) (by simpa using hpos)
  rw [eraseIterating, hnone, Option.bind_none]

theorem eraseIterating_pointers_last {before : List α} {o : α} (ho : checker o = true)
    (hbefore : ∀ x ∈ before, checker x = false) :
    eraseIterating .pointers checker (before ++ [o]) = some before := by
  have hlen : (before ++ [o]).length = before.length + 1 := by simp
  rw [eraseIterating, hlen, passes_first_match ho hbefore, Option.bind_some, List.append_nil]
  rfl

theorem eraseIterating_eq_filter_iff (kind : Iterators) (checker : α → Bool) (obs : List α) :
    eraseIterating kind checker obs = some (obs.filter fun o => !checker o) ↔
      Harmless checker obs kind := by
  by_cases hmatch : ∃ o ∈ obs, checker o = true
  · obtain ⟨before, o, after, rfl, ho, hbefore⟩ := exists_first_match hmatch
    cases kind with
    | standard =>
        rw [eraseIterating_standard_eq_none ho hbefore]
        refine iff_of_false (by simp) fun h => ?_
        exact absurd (h o (by simp)) (by simp [ho])
    | pointers =>
        rcases eq_or_ne after [] with rfl | hafter
        · rw [eraseIterating_pointers_last ho hbefore]
          refine iff_of_true ?_ ?_
          · rw [List.filter_append, filter_not_eq_self hbefore]
            simp [ho]
          · rwa [Harmless, List.dropLast_concat]
        · rw [eraseIterating_pointers_eq_none ho hbefore hafter]
          refine iff_of_false (by simp) fun h => ?_
          have hmem : o ∈ (before ++ o :: after).dropLast := by
            rw [List.dropLast_append_of_ne_nil (List.cons_ne_nil _ _),
              List.dropLast_cons_of_ne_nil hafter]
            simp
          exact absurd (h o hmem) (by simp [ho])
  · have hnone : ∀ o ∈ obs, checker o = false := by simpa using hmatch
    rw [eraseIterating_of_forall hnone, filter_not_eq_self hnone]
    refine iff_of_true rfl ?_
    cases kind with
    | standard => exact hnone
    | pointers => exact fun o ho => hnone o (List.dropLast_subset _ ho)

end Iterating

namespace ObserverTable

/-- The condition of `removeObservers`. -/
def hasTargets (target objsLastTarget : Pointer) (o : IosObserver) : Bool :=
  o.objcLastTarget = objsLastTarget && o.objcTarget = target

/-- `addObserver` with two targets. -/
def addObserverWithLastTarget (t : ObserverTable IosObserver) (name : String)
    (target objsLastTarget selector : Pointer) : ObserverTable IosObserver :=
  t.add name
    { objcTarget := target, objcLastTarget := objsLastTarget, objcCallback := selector }

def removeObservers (kind : Iterators) (t : ObserverTable IosObserver) (name : String)
    (target objsLastTarget : Pointer) : Option (ObserverTable IosObserver) :=
  match t.observers[name]? with
  | none => some t
  | some obs =>
      (eraseIterating kind (hasTargets target objsLastTarget) obs).map fun obs =>
        ⟨t.observers.insert name obs⟩

theorem removeObservers_filtered_iff (kind : Iterators) (t : ObserverTable IosObserver)
    (name : String) (target objsLastTarget : Pointer) :
    (∃ t', t.removeObservers kind name target objsLastTarget = some t' ∧
      t.FilteredUnder t' name (hasTargets target objsLastTarget)) ↔
      Harmless (hasTargets target objsLastTarget) (t.under name) kind := by
  rw [← eraseIterating_eq_filter_iff]
  cases hget : t.observers[name]? with
  | none =>
      have hunder : t.under name = [] := by
        rw [under, Std.ExtTreeMap.getD_eq_getD_getElem?, hget]
        rfl
      rw [removeObservers, hget, hunder]
      refine iff_of_true ⟨t, rfl, ?_, fun _ _ => rfl⟩ ?_
      · rw [hunder]
        rfl
      · rw [eraseIterating_of_forall fun _ h => absurd h List.not_mem_nil]
        rfl
  | some obs =>
      have hunder : t.under name = obs := by
        rw [under, Std.ExtTreeMap.getD_eq_getD_getElem?, hget]
        rfl
      rw [removeObservers, hget, hunder]
      constructor
      · rintro ⟨t', hremove, hfiltered⟩
        obtain ⟨left, hleft, rfl⟩ := Option.map_eq_some_iff.mp hremove
        rwa [filteredUnder_insert_iff.mp hfiltered, hunder] at hleft
      · intro herase
        refine ⟨_, congrArg (Option.map _) herase, filteredUnder_insert_iff.mpr ?_⟩
        rw [hunder]

def twoTargets : ObserverTable IosObserver :=
  (addObserverWithLastTarget ⟨∅⟩ "login" 1 7 3).addObserverWithLastTarget "login" 2 7 3

theorem removeObservers_twoTargets (kind : Iterators) :
    twoTargets.removeObservers kind "login" 1 7 = none := by
  have hnone : (twoTargets.removeObservers kind "login" 1 7).map (·.under "login") = none := by
    cases kind <;> decide
  exact Option.map_eq_none_iff.mp hnone

/-- Neither reading of the loop removes the first and keeps the second. -/
theorem not_filtered_twoTargets :
    (¬ ∃ t', twoTargets.removeObservers .standard "login" 1 7 = some t' ∧
      twoTargets.FilteredUnder t' "login" (hasTargets 1 7)) ∧
    ¬ ∃ t', twoTargets.removeObservers .pointers "login" 1 7 = some t' ∧
      twoTargets.FilteredUnder t' "login" (hasTargets 1 7) := by
  rw [removeObservers_twoTargets, removeObservers_twoTargets]
  simp

/-- The loop without a match, and with a match at the end. -/
theorem filtered_twoTargets :
    (∃ t', twoTargets.removeObservers .standard "login" 4 7 = some t' ∧
      twoTargets.FilteredUnder t' "login" (hasTargets 4 7)) ∧
    ∃ t', twoTargets.removeObservers .pointers "login" 2 7 = some t' ∧
      twoTargets.FilteredUnder t' "login" (hasTargets 2 7) :=
  ⟨(removeObservers_filtered_iff .standard twoTargets "login" 4 7).mpr (by decide),
    (removeObservers_filtered_iff .pointers twoTargets "login" 2 7).mpr (by decide)⟩

end ObserverTable

end Notification

end UnifyFramework
