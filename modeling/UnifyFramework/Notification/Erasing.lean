import Mathlib.Data.List.Basic
import Mathlib.Tactic.Common

/-!
# Erasing by collected indices

Observers are removed by collecting the indices at which they stand and erasing these
indices one after the other, in ascending order and without accounting for the elements
that have moved up. With at most one index this removes what it should. With more, the last
erasure is always past the last observer that was to be removed: it takes an observer of
somebody else, or it is past the end of the vector, which C++ leaves undefined and the
model gives as `none`.
-/

namespace UnifyFramework

namespace Notification

variable {α : Type*}

/-- The loop that fills `delIndexs`, from the index `i` on. -/
def delIndexs (checker : α → Bool) : ℕ → List α → List ℕ
  | _, [] => []
  | i, o :: obs =>
      if checker o then i :: delIndexs checker (i + 1) obs else delIndexs checker (i + 1) obs

/-- The loop that erases; `none` for `erase` at or past the end. -/
def eraseIndexs : List ℕ → List α → Option (List α)
  | [], obs => some obs
  | i :: is, obs => if i < obs.length then eraseIndexs is (obs.eraseIdx i) else none

def eraseByCondition (checker : α → Bool) (obs : List α) : Option (List α) :=
  eraseIndexs (delIndexs checker 0 obs) obs

variable {checker : α → Bool}

theorem delIndexs_append (i : ℕ) (l l' : List α) :
    delIndexs checker i (l ++ l') =
      delIndexs checker i l ++ delIndexs checker (i + l.length) l' := by
  induction l generalizing i with
  | nil => rfl
  | cons o l ih =>
      have hindex : i + (l.length + 1) = i + 1 + l.length := by omega
      rw [List.cons_append, List.length_cons, hindex]
      simp only [delIndexs]
      split <;> simp [ih]

theorem delIndexs_eq_nil_iff {i : ℕ} {l : List α} :
    delIndexs checker i l = [] ↔ ∀ o ∈ l, checker o = false := by
  induction l generalizing i with
  | nil => simp [delIndexs]
  | cons o l ih =>
      cases ho : checker o <;> simp [delIndexs, ho, ih]

theorem lt_of_mem_delIndexs {i j : ℕ} {l : List α} (h : j ∈ delIndexs checker i l) :
    j < i + l.length := by
  induction l generalizing i with
  | nil => cases h
  | cons o l ih =>
      have hrest : j ∈ delIndexs checker (i + 1) l → j < i + (l.length + 1) := by
        intro hj
        have := ih hj
        omega
      simp only [delIndexs] at h
      split at h
      · rcases List.mem_cons.mp h with rfl | hj
        · exact Nat.lt_add_of_pos_right (Nat.succ_pos _)
        · exact hrest hj
      · exact hrest h

theorem exists_last_match {l : List α} (h : ∃ o ∈ l, checker o = true) :
    ∃ before o after, l = before ++ o :: after ∧ checker o = true ∧
      ∀ x ∈ after, checker x = false := by
  induction l with
  | nil =>
      obtain ⟨o, ho, _⟩ := h
      cases ho
  | cons x l ih =>
      by_cases hl : ∃ o ∈ l, checker o = true
      · obtain ⟨before, o, after, rfl, ho, hafter⟩ := ih hl
        exact ⟨x :: before, o, after, rfl, ho, hafter⟩
      · have hnone : ∀ o ∈ l, checker o = false := by simpa using hl
        obtain ⟨o, ho, hcheck⟩ := h
        rcases List.mem_cons.mp ho with rfl | hmem
        · exact ⟨[], o, l, rfl, hcheck, hnone⟩
        · exact absurd ⟨o, hmem, hcheck⟩ hl

theorem delIndexs_last_match {before after : List α} {o : α} (ho : checker o = true)
    (hafter : ∀ x ∈ after, checker x = false) :
    delIndexs checker 0 (before ++ o :: after) =
      delIndexs checker 0 before ++ [before.length] := by
  have hnil := delIndexs_eq_nil_iff (i := before.length + 1) |>.mpr hafter
  rw [delIndexs_append, Nat.zero_add, delIndexs, if_pos ho, hnil]

theorem eraseIndexs_append (is js : List ℕ) (l : List α) :
    eraseIndexs (is ++ js) l = (eraseIndexs is l).bind (eraseIndexs js) := by
  induction is generalizing l with
  | nil => rfl
  | cons i is ih =>
      simp only [List.cons_append, eraseIndexs]
      split
      · exact ih _
      · rfl

theorem eraseIndexs_cons_eq_some_iff {i : ℕ} {is : List ℕ} {l l' : List α} :
    eraseIndexs (i :: is) l = some l' ↔
      i < l.length ∧ eraseIndexs is (l.eraseIdx i) = some l' := by
  simp [eraseIndexs]

theorem sublist_of_eraseIndexs {is : List ℕ} {l l' : List α} (h : eraseIndexs is l = some l') :
    l'.Sublist l := by
  induction is generalizing l with
  | nil =>
      cases h
      exact List.Sublist.refl _
  | cons i is ih =>
      obtain ⟨_, hrest⟩ := eraseIndexs_cons_eq_some_iff.mp h
      exact (ih hrest).trans (List.eraseIdx_sublist l i)

theorem drop_eraseIdx {i j : ℕ} {l : List α} (hi : i < l.length) (hij : i ≤ j) :
    (l.eraseIdx i).drop j = l.drop (j + 1) := by
  have hlen : (l.take i).length = i := by
    rw [List.length_take]
    omega
  have hindex : i + 1 + (j - i) = j + 1 := by omega
  rw [List.eraseIdx_eq_take_drop_succ, List.drop_append, hlen,
    List.drop_eq_nil_of_le (Nat.le_trans (Nat.le_of_eq hlen) hij), List.nil_append, List.drop_drop, hindex]

/-- Erasures in front of `j` move the elements behind `j` up. -/
theorem drop_suffix_of_eraseIndexs {is : List ℕ} {j : ℕ} {l l' : List α}
    (h : eraseIndexs is l = some l') (his : ∀ i ∈ is, i < j) : l'.drop j <:+ l.drop j := by
  induction is generalizing l with
  | nil =>
      cases h
      exact List.suffix_refl _
  | cons i is ih =>
      obtain ⟨hi, hrest⟩ := eraseIndexs_cons_eq_some_iff.mp h
      obtain ⟨hij, his⟩ := List.forall_mem_cons.mp his
      have hdrop : (l.eraseIdx i).drop j <:+ l.drop j := by
        rw [drop_eraseIdx hi (Nat.le_of_lt hij), ← List.drop_drop]
        exact List.drop_suffix 1 _
      exact (ih hrest his).trans hdrop

theorem filter_not_eq_self {l : List α} (h : ∀ x ∈ l, checker x = false) :
    l.filter (fun x => !checker x) = l := by
  refine List.filter_eq_self.mpr fun x hx => ?_
  rw [h x hx]
  rfl

/-- One observer at most: it is removed and the others stay. -/
theorem eraseByCondition_of_countP_le_one {l : List α} (h : l.countP checker ≤ 1) :
    eraseByCondition checker l = some (l.filter fun o => !checker o) := by
  by_cases hmatch : ∃ o ∈ l, checker o = true
  · obtain ⟨before, o, after, rfl, ho, hafter⟩ := exists_last_match hmatch
    have hcount : before.countP checker = 0 := by
      rw [List.countP_append, List.countP_cons_of_pos ho] at h
      omega
    have hbefore : ∀ x ∈ before, checker x = false := by
      intro x hx
      simpa using List.countP_eq_zero.mp hcount x hx
    have hlt : before.length < (before ++ o :: after).length := by simp
    rw [eraseByCondition, delIndexs_last_match ho hafter, delIndexs_eq_nil_iff.mpr hbefore,
      List.nil_append, eraseIndexs, if_pos hlt, eraseIndexs, List.filter_append,
      List.filter_cons_of_neg (by simp [ho]), filter_not_eq_self hbefore, filter_not_eq_self hafter,
      List.eraseIdx_append_of_length_le (Nat.le_refl _), Nat.sub_self, List.eraseIdx_cons_zero]
  · have hnone : ∀ o ∈ l, checker o = false := by simpa using hmatch
    rw [eraseByCondition, delIndexs_eq_nil_iff.mpr hnone, eraseIndexs, filter_not_eq_self hnone]

/-- Two observers or more: somebody else's observer is lost. -/
theorem countP_lt_of_eraseByCondition {l l' : List α} (h : eraseByCondition checker l = some l')
    (hcount : 2 ≤ l.countP checker) :
    l'.countP (fun o => !checker o) < l.countP fun o => !checker o := by
  have hmatch : ∃ o ∈ l, checker o = true := List.countP_pos_iff.mp (by omega)
  obtain ⟨before, o, after, rfl, ho, hafter⟩ := exists_last_match hmatch
  rw [eraseByCondition, delIndexs_last_match ho hafter, eraseIndexs_append] at h
  obtain ⟨m, hm, hlast⟩ := Option.bind_eq_some_iff.mp h
  obtain ⟨hj, hl'⟩ := eraseIndexs_cons_eq_some_iff.mp hlast
  cases hl'
  -- the first erasure moves what stands behind the last match to its place
  have hdrop : m.drop before.length <:+ after := by
    cases hindexs : delIndexs checker 0 before with
    | nil =>
        have hzero : before.countP checker = 0 := by
          refine List.countP_eq_zero.mpr fun x hx => ?_
          simp [delIndexs_eq_nil_iff.mp hindexs x hx]
        have hafter' : after.countP checker = 0 :=
          List.countP_eq_zero.mpr fun x hx => by simp [hafter x hx]
        rw [List.countP_append, List.countP_cons_of_pos ho] at hcount
        omega
    | cons i is =>
        have hlt : ∀ j ∈ i :: is, j < before.length := by
          intro j hj
          rw [← hindexs] at hj
          simpa using lt_of_mem_delIndexs hj
        rw [hindexs] at hm
        obtain ⟨hi, hrest⟩ := eraseIndexs_cons_eq_some_iff.mp hm
        obtain ⟨hij, his⟩ := List.forall_mem_cons.mp hlt
        have hsuffix := drop_suffix_of_eraseIndexs hrest his
        rw [drop_eraseIdx hi (Nat.le_of_lt hij)] at hsuffix
        have hafterDrop : (before ++ o :: after).drop (before.length + 1) = after := by
          rw [List.drop_append, List.drop_eq_nil_of_le (Nat.le_succ _), Nat.add_sub_cancel_left]
          rfl
        rwa [hafterDrop] at hsuffix
  have hother : checker (m[before.length]) = false := by
    refine hafter _ (hdrop.subset ?_)
    rw [List.drop_eq_getElem_cons hj]
    exact List.mem_cons_self
  have hm' : (m.eraseIdx before.length).countP (fun x => !checker x) + 1 =
      m.countP fun x => !checker x := by
    conv_rhs => rw [← List.take_append_drop before.length m, List.drop_eq_getElem_cons hj]
    rw [List.eraseIdx_eq_take_drop_succ, List.countP_append, List.countP_append,
      List.countP_cons_of_pos (by rw [hother]; rfl), Nat.add_assoc]
  have hle := (sublist_of_eraseIndexs hm).countP_le (p := fun x => !checker x)
  omega

theorem sublist_of_eraseByCondition {l l' : List α} (h : eraseByCondition checker l = some l') :
    l'.Sublist l :=
  sublist_of_eraseIndexs h

end Notification

end UnifyFramework
