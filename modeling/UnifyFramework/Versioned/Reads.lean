import Mathlib.Data.Nat.Find
import UnifyFramework.Versioned.Basic

/-!
# What readers see

A version holds a value or says that the key was deleted. Readers see a deleted key as one that
was never written, so versions can go that are hidden by a newer one, and so can deletions with
nothing older behind them. Readers whose number is not below those of the versions concerned do
not notice.
-/

namespace Versioned

variable {κ ν : Type*} {E F G N : Set (Entry κ (Option ν))} {k : κ} {s s₀ : ℕ} {o : Option ν}

def Reads (E : Set (Entry κ (Option ν))) (k : κ) (s : ℕ) (o : Option ν) : Prop :=
  ∃ a, Answers E k s a ∧ o = a.join

def SameReads (s₀ : ℕ) (E F : Set (Entry κ (Option ν))) : Prop :=
  ∀ k s o, s₀ ≤ s → Reads E k s o → Reads F k s o

theorem SameReads.refl (s₀ : ℕ) (E : Set (Entry κ (Option ν))) : SameReads s₀ E E :=
  fun _ _ _ _ h => h

theorem SameReads.trans (h : SameReads s₀ E F) (h' : SameReads s₀ F G) : SameReads s₀ E G :=
  fun k s o hs hreads => h' k s o hs (h k s o hs hreads)

theorem SameReads.mono (h : SameReads s E F) (hs : s ≤ s₀) : SameReads s₀ E F :=
  fun k t o ht hreads => h k t o (hs.trans ht) hreads

/-- Every read has an answer, since the numbers it can see are bounded. -/
theorem exists_answers {κ ν : Type*} (E : Set (Entry κ ν)) (k : κ) (s : ℕ) :
    ∃ a, Answers E k s a := by
  by_cases hvisible : ∃ e ∈ E, e.key = k ∧ e.seq ≤ s
  · classical
    have hex : ∃ n, ∃ e ∈ E, e.key = k ∧ e.seq ≤ s ∧ s - e.seq = n := by
      obtain ⟨e, he, hkey, hle⟩ := hvisible
      exact ⟨_, e, he, hkey, hle, rfl⟩
    -- The latest version is the one nearest to the number.
    obtain ⟨e, he, hkey, hle, hnear⟩ := Nat.find_spec hex
    refine ⟨_, .found (e := e) ⟨he, hkey, hle, fun f hf hfkey hfle => ?_⟩⟩
    have hmin := Nat.find_min' hex ⟨f, hf, hfkey, hfle, rfl⟩
    omega
  · refine ⟨none, .notFound fun e he hkey => Nat.lt_of_not_le fun hle => ?_⟩
    exact hvisible ⟨e, he, hkey, hle⟩

/-- Newer versions in front change nothing. -/
theorem SameReads.union (h : SameReads s₀ E F) (hE : Newer N E) (hF : Newer N F)
    (hfun : Functional (N ∪ E)) : SameReads s₀ (N ∪ E) (N ∪ F) := by
  rintro k s _ hs ⟨a, ha, rfl⟩
  obtain ⟨n, hn⟩ := exists_answers N k s
  obtain ⟨b, hb⟩ := exists_answers E k s
  obtain ⟨c, hc, hjoin⟩ := h k s _ hs ⟨b, hb, rfl⟩
  rw [ha.eq hfun (hn.union hE hb)]
  refine ⟨_, hn.union hF hc, ?_⟩
  cases n with
  | none => exact hjoin
  | some v => rfl

/-- Every version that is gone was hidden by a newer one, or by a deletion behind which nothing is
left. -/
structure Compacts (s₀ : ℕ) (E F : Set (Entry κ (Option ν))) : Prop where
  subset : F ⊆ E
  hidden : ∀ e ∈ E, e ∉ F →
    (∃ f ∈ F, f.key = e.key ∧ e.seq < f.seq ∧ f.seq ≤ s₀) ∨
      ∃ d ∈ E, d.key = e.key ∧ e.seq ≤ d.seq ∧ d.seq ≤ s₀ ∧ d.value = none ∧
        ∀ f ∈ F, f.key = e.key → d.seq < f.seq

theorem Compacts.sameReads (h : Compacts s₀ E F) (hfun : Functional E) : SameReads s₀ E F := by
  rintro k s _ hs ⟨a, ha, rfl⟩
  cases ha with
  | notFound hnone => exact ⟨none, .notFound fun f hf => hnone f (h.subset hf), rfl⟩
  | @found e he =>
      by_cases hmem : e ∈ F
      · refine ⟨_, .found ⟨hmem, he.key_eq, he.seq_le, fun f hf => he.max f (h.subset hf)⟩, rfl⟩
      rcases h.hidden e he.mem hmem with
        ⟨f, hf, hkey, hlt, hle⟩ | ⟨d, hd, hkey, hle, hds, hnone, hbehind⟩
      · exact absurd (he.max f (h.subset hf) (hkey.trans he.key_eq) (hle.trans hs)) hlt.not_ge
      · have hseq := Nat.le_antisymm hle (he.max d hd (hkey.trans he.key_eq) (hds.trans hs))
        obtain rfl : d = e := hfun d hd e he.mem hkey hseq.symm
        refine ⟨none, .notFound fun f hf hfkey => Nat.lt_of_not_le fun hfle => ?_, ?_⟩
        · have hmax := he.max f (h.subset hf) hfkey hfle
          exact absurd hmax (hbehind f hf (hfkey.trans he.key_eq.symm)).not_ge
        · rw [hnone]
          rfl

end Versioned
