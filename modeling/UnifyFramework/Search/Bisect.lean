import Mathlib.Data.Nat.Basic

/-!
# Halving a range

Positions are before what is sought up to some position and not from there on. Halving the range
of positions that are left finds the place. The number of rounds bounds the loop; the length of
the range is enough.
-/

namespace Search

variable {before : ℕ → Bool} {n left right : ℕ}

/-- The first position of the range that is not before what is sought, or its end. -/
def bisect (before : ℕ → Bool) : ℕ → ℕ → ℕ → ℕ
  | 0, _, right => right
  | n + 1, left, right =>
      if left < right then
        if before ((left + right) / 2) then bisect before n ((left + right) / 2 + 1) right
        else bisect before n left ((left + right) / 2)
      else right

structure IsPlace (before : ℕ → Bool) (left right r : ℕ) : Prop where
  left_le : left ≤ r
  le_right : r ≤ right
  before_of_lt : ∀ i, left ≤ i → i < r → before i = true
  not_before : ∀ i, r ≤ i → i < right → before i = false

theorem isPlace_bisect (hanti : ∀ i j, i ≤ j → j < right → before j = true → before i = true)
    (hle : left ≤ right) (hn : right - left ≤ n) :
    IsPlace before left right (bisect before n left right) := by
  induction n generalizing left right with
  | zero =>
      obtain rfl : left = right := by omega
      rw [bisect]
      exact ⟨Nat.le_refl _, Nat.le_refl _, fun i h h' => by omega, fun i h h' => by omega⟩
  | succ n ih =>
      rw [bisect]
      by_cases hlt : left < right
      · rw [if_pos hlt]
        by_cases hmid : before ((left + right) / 2) = true
        · rw [if_pos hmid]
          have hplace : IsPlace before ((left + right) / 2 + 1) right
              (bisect before n ((left + right) / 2 + 1) right) :=
            ih hanti (by omega) (by omega)
          refine ⟨by have := hplace.left_le; omega, hplace.le_right, fun i hi hr => ?_,
            hplace.not_before⟩
          by_cases him : i ≤ (left + right) / 2
          · exact hanti i _ him (by omega) hmid
          · exact hplace.before_of_lt i (by omega) hr
        · rw [if_neg hmid]
          have hplace : IsPlace before left ((left + right) / 2)
              (bisect before n left ((left + right) / 2)) :=
            ih (fun i j hij hj => hanti i j hij (by omega)) (by omega) (by omega)
          refine ⟨hplace.left_le, by have := hplace.le_right; omega, hplace.before_of_lt,
            fun i hi hr => ?_⟩
          by_cases him : i < (left + right) / 2
          · exact hplace.not_before i hi him
          · refine Bool.eq_false_iff.mpr fun hbefore => hmid ?_
            exact hanti _ i (by omega) hr hbefore
      · rw [if_neg hlt]
        exact ⟨hle, Nat.le_refl _, fun i h h' => by omega, fun i h h' => by omega⟩

end Search
