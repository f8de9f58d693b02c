import Mathlib.Algebra.BigOperators.Ring.Finset
import Mathlib.Algebra.Order.BigOperators.Group.Finset
import Mathlib.Data.Set.Card

/-!
# Sets on levels

Sets stand on `n` levels, and an element weighs as much as there are levels from its own on. The
weight falls when elements move to the next level, also if some of them are lost, and a set that is
put in adds at most `n` for each of its elements.
-/

namespace Versioned

variable {α : Type*} {n : ℕ} {E E' : ℕ → Set α} {M : Set α} {l : ℕ}

noncomputable def weight (n : ℕ) (E : ℕ → Set α) : ℕ :=
  ∑ i ∈ Finset.range n, (n - i) * (E i).ncard

theorem weight_add_le {f g : ℕ → ℕ} (h : ∀ i, (E' i).ncard + f i ≤ (E i).ncard + g i) :
    weight n E' + ∑ i ∈ Finset.range n, (n - i) * f i ≤
      weight n E + ∑ i ∈ Finset.range n, (n - i) * g i := by
  rw [weight, weight, ← Finset.sum_add_distrib, ← Finset.sum_add_distrib]
  refine Finset.sum_le_sum fun i _ => ?_
  rw [← Nat.mul_add, ← Nat.mul_add]
  exact Nat.mul_le_mul_left _ (h i)

theorem sum_single (hl : l < n) (k : ℕ) :
    ∑ i ∈ Finset.range n, (n - i) * (if i = l then k else 0) = (n - l) * k := by
  rw [Finset.sum_eq_single_of_mem l (Finset.mem_range.mpr hl) fun i _ hi => by rw [if_neg hi, mul_zero],
    if_pos rfl]

/-- The elements of `M` leave their level, and at most these come to the next one. -/
theorem weight_lt (hl : l + 1 < n) (hfinite : ∀ i, (E i).Finite) (hM : M ⊆ E l)
    (hne : M.Nonempty) (hleave : E' l ⊆ E l \ M) (hcome : E' (l + 1) ⊆ E (l + 1) ∪ M)
    (hrest : ∀ i, i ≠ l → i ≠ l + 1 → E' i ⊆ E i) : weight n E' < weight n E := by
  have hMfinite : M.Finite := (hfinite l).subset hM
  have hpos : 0 < M.ncard := (Set.ncard_pos hMfinite).mpr hne
  have hcard : ∀ i, (E' i).ncard + (if i = l then M.ncard else 0) ≤
      (E i).ncard + (if i = l + 1 then M.ncard else 0) := by
    intro i
    by_cases hi : i = l
    · subst hi
      have hle := Set.ncard_le_ncard hleave (hfinite i).sdiff
      have hsplit := Set.ncard_sdiff_add_ncard_of_subset hM (hfinite i)
      rw [if_pos rfl, if_neg (by omega)]
      omega
    · rw [if_neg hi]
      by_cases hnext : i = l + 1
      · subst hnext
        rw [if_pos rfl]
        exact (Set.ncard_le_ncard hcome ((hfinite _).union hMfinite)).trans (Set.ncard_union_le _ _)
      · rw [if_neg hnext]
        exact Set.ncard_le_ncard (hrest i hi hnext) (hfinite i)
  have hle := weight_add_le (n := n) hcard
  rw [sum_single (by omega), sum_single hl] at hle
  have hstep : (n - l) * M.ncard = (n - (l + 1)) * M.ncard + M.ncard := by
    rw [← Nat.succ_mul]
    congr 1
    omega
  omega

theorem weight_le_add (hl : l < n) (hfinite : ∀ i, (E i).Finite) (hM : M.Finite)
    (hcome : E' l ⊆ E l ∪ M) (hrest : ∀ i, i ≠ l → E' i ⊆ E i) :
    weight n E' ≤ weight n E + n * M.ncard := by
  have hcard : ∀ i, (E' i).ncard + 0 ≤ (E i).ncard + (if i = l then M.ncard else 0) := by
    intro i
    by_cases hi : i = l
    · subst hi
      rw [if_pos rfl]
      exact (Set.ncard_le_ncard hcome ((hfinite i).union hM)).trans (Set.ncard_union_le _ _)
    · rw [if_neg hi]
      exact Set.ncard_le_ncard (hrest i hi) (hfinite i)
  have hle := weight_add_le (n := n) hcard
  rw [sum_single hl] at hle
  refine (Nat.le_of_add_right_le hle).trans (Nat.add_le_add_left ?_ _)
  exact Nat.mul_le_mul_right _ (Nat.sub_le n l)

end Versioned
