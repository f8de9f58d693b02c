import Mathlib.Data.Set.Insert
import Mathlib.Order.Lattice

/-!
# Items with ranges of keys

Each item `i` of a family reaches from `lo i` to `hi i`. A set of items is connected if no range
fits between them: what does not lie outside of the set meets one of the items. A connected set
stays connected when items are added that meet a range which it spans.
-/

namespace Search

variable {ι α : Type*} [LinearOrder α] {lo hi : ι → α} {C D : Set ι} {a b : α}

def Meets (lo hi : ι → α) (a b : α) (i : ι) : Prop := a ≤ hi i ∧ lo i ≤ b

/-- A range that does not lie outside of the set meets one of its items. -/
def Connected (lo hi : ι → α) (C : Set ι) : Prop :=
  ∀ a b, a ≤ b → (∃ i ∈ C, lo i ≤ b) → (∃ i ∈ C, a ≤ hi i) → ∃ i ∈ C, Meets lo hi a b i

def Spans (lo hi : ι → α) (C : Set ι) (a b : α) : Prop :=
  (∃ i ∈ C, lo i ≤ a) ∧ ∃ i ∈ C, b ≤ hi i

theorem connected_singleton (lo hi : ι → α) (i : ι) : Connected lo hi {i} := by
  rintro a b - ⟨_, rfl, hlo⟩ ⟨j, hj, hhi⟩
  exact ⟨j, hj, hhi, hj ▸ hlo⟩

theorem Spans.mono (h : Spans lo hi C a b) (hsubset : C ⊆ D) : Spans lo hi D a b :=
  ⟨h.1.imp fun _ hi => ⟨hsubset hi.1, hi.2⟩, h.2.imp fun _ hi => ⟨hsubset hi.1, hi.2⟩⟩

theorem Connected.union (hC : Connected lo hi C) (hspans : Spans lo hi C a b)
    (hD : ∀ i ∈ D, Meets lo hi a b i) : Connected lo hi (C ∪ D) := by
  intro x y hxy hlo hhi
  by_contra hnone
  have hout : ∀ i ∈ C ∪ D, x ≤ hi i → y < lo i := fun i hmem hle =>
    lt_of_not_ge fun hge => hnone ⟨i, hmem, hle, hge⟩
  -- An item that was added and ends before the range ends behind an item of the set.
  have hlo' : ∃ i ∈ C, lo i ≤ y := by
    obtain ⟨i, hmem | hmem, hle⟩ := hlo
    · exact ⟨i, hmem, hle⟩
    · obtain ⟨j, hj, hja⟩ := hspans.1
      have hlt : hi i < x := lt_of_not_ge fun hge => (hout i (.inr hmem) hge).not_ge hle
      exact ⟨j, hj, hja.trans (((hD i hmem).1.trans hlt.le).trans hxy)⟩
  have hhi' : ∃ i ∈ C, x ≤ hi i := by
    obtain ⟨i, hmem | hmem, hle⟩ := hhi
    · exact ⟨i, hmem, hle⟩
    · obtain ⟨j, hj, hjb⟩ := hspans.2
      exact ⟨j, hj, ((hxy.trans (hout i (.inr hmem) hle).le).trans (hD i hmem).2).trans hjb⟩
  obtain ⟨i, hmem, hmeets⟩ := hC x y hxy hlo' hhi'
  exact hnone ⟨i, .inl hmem, hmeets⟩

end Search
