import UnifyFramework.Transition.Run

/-!
# Runs and traces

In a trace of a labelled relation each state goes to the next one with one label after the other.
When each step of a machine is matched by the relation, with the same label and between related
states, each run is matched by a trace, and the states are related all along.
-/

namespace Transition

variable {σ τ ε : Type*}

def Trace (R : ε → τ → τ → Prop) (es : List ε) (t : ℕ → τ) : Prop :=
  ∀ i e, es[i]? = some e → R e (t i) (t (i + 1))

theorem trace_cons_iff {R : ε → τ → τ → Prop} {e : ε} {es : List ε} {t : ℕ → τ} :
    Trace R (e :: es) t ↔ R e (t 0) (t 1) ∧ Trace R es fun i => t (i + 1) := by
  refine ⟨fun h => ⟨h 0 e rfl, fun i => h (i + 1)⟩, fun h i e' he' => ?_⟩
  cases i with
  | zero => exact Option.some.inj he' ▸ h.1
  | succ i => exact h.2 i e' he'

theorem exists_trace_of_run {step : σ → ε → Option σ} {R : ε → τ → τ → Prop} {I : σ → τ → Prop}
    (hstep : ∀ s t e s', I s t → step s e = some s' → ∃ t', R e t t' ∧ I s' t') {s s' : σ} {t : τ}
    {es : List ε} (hs : I s t) (hrun : run step s es = some s') :
    ∃ ts : ℕ → τ, ts 0 = t ∧ Trace R es ts ∧
      ∀ i ≤ es.length, ∃ m, run step s (es.take i) = some m ∧ I m (ts i) := by
  induction es generalizing s t with
  | nil =>
      refine ⟨fun _ => t, rfl, fun i e he => absurd he (by simp), fun i hi => ?_⟩
      obtain rfl := Nat.le_zero.mp hi
      exact ⟨s, rfl, hs⟩
  | cons e es ih =>
      obtain ⟨m, hm, hrest⟩ := run_cons_eq_some_iff.mp hrun
      obtain ⟨u, hu, hI⟩ := hstep s t e m hs hm
      obtain ⟨ts, rfl, htrace, hall⟩ := ih hI hrest
      -- The trace of the rest, with the first state before it.
      refine ⟨fun i => i.casesOn t ts, rfl, trace_cons_iff.mpr ⟨hu, htrace⟩, fun i hi => ?_⟩
      cases i with
      | zero => exact ⟨s, rfl, hs⟩
      | succ i =>
          obtain ⟨m', hm', hI'⟩ := hall i (Nat.le_of_succ_le_succ hi)
          exact ⟨m', run_cons_eq_some_iff.mpr ⟨m, hm, hm'⟩, hI'⟩

end Transition
