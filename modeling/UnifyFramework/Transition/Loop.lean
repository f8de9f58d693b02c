import Mathlib.Order.Basic

/-!
# Loops that run until a round does nothing

A round takes a state and either ends the loop (`none`) or returns the events
it emitted and the next state. `Exhausts round s es s'` is the big-step meaning
of the loop: from `s` it emits `es` and ends in `s'`. `exhaust round n s` runs at
most `n` rounds, and it computes the big-step meaning when every round lowers a
measure that starts below `n`.
-/

namespace Transition

variable {σ ε : Type*}

/-- Run the rounds from `s`, at most `n` of them, and collect the events. -/
def exhaust (round : σ → Option (List ε × σ)) : ℕ → σ → List ε × σ
  | 0, s => ([], s)
  | n + 1, s =>
      match round s with
      | none => ([], s)
      | some (e, s') =>
          let rest := exhaust round n s'
          (e ++ rest.1, rest.2)

inductive Exhausts (round : σ → Option (List ε × σ)) : σ → List ε → σ → Prop
  | stop {s : σ} : round s = none → Exhausts round s [] s
  | more {s s' s'' : σ} {e es : List ε} : round s = some (e, s') →
      Exhausts round s' es s'' → Exhausts round s (e ++ es) s''

variable {round : σ → Option (List ε × σ)}

theorem Exhausts.unique {s s₁ s₂ : σ} {es₁ es₂ : List ε} (h₁ : Exhausts round s es₁ s₁)
    (h₂ : Exhausts round s es₂ s₂) : es₁ = es₂ ∧ s₁ = s₂ := by
  induction h₁ generalizing es₂ s₂ with
  | stop h =>
      cases h₂ with
      | stop _ => exact ⟨rfl, rfl⟩
      | more h' _ =>
          rw [h] at h'
          cases h'
  | more h _ ih =>
      cases h₂ with
      | stop h' =>
          rw [h] at h'
          cases h'
      | more h' hrest =>
          rw [h] at h'
          obtain ⟨rfl, rfl⟩ := Prod.mk.inj (Option.some.inj h')
          obtain ⟨rfl, rfl⟩ := ih hrest
          exact ⟨rfl, rfl⟩

/-- If a change `f` of the state keeps every round, then running the loop and
changing the final state can be done in either order. -/
theorem Exhausts.lift {f : σ → σ}
    (hf : ∀ s e s', round s = some (e, s') → round (f s) = some (e, f s'))
    {s s' s'' : σ} {es es' : List ε} (h : Exhausts round s es s')
    (h' : Exhausts round (f s') es' s'') : Exhausts round (f s) (es ++ es') s'' := by
  induction h with
  | stop _ => exact h'
  | more hround _ ih =>
      rw [List.append_assoc]
      exact Exhausts.more (hf _ _ _ hround) (ih h')

/-- With a measure that every round lowers, the bounded loop computes the
big-step meaning. -/
theorem exhausts_exhaust {μ : σ → ℕ}
    (hμ : ∀ s e s', round s = some (e, s') → μ s' < μ s) :
    ∀ (n : ℕ) (s : σ), μ s < n →
      Exhausts round s (exhaust round n s).1 (exhaust round n s).2
  | 0, _, h => absurd h (Nat.not_lt_zero _)
  | n + 1, s, h => by
      cases hs : round s with
      | none =>
          simp only [exhaust, hs]
          exact Exhausts.stop hs
      | some x =>
          have hlt : μ x.2 < μ s := hμ s x.1 x.2 hs
          have ih := exhausts_exhaust hμ n x.2 (by omega)
          simp only [exhaust, hs]
          exact Exhausts.more hs ih

theorem exhaust_eq_of_exhausts {μ : σ → ℕ}
    (hμ : ∀ s e s', round s = some (e, s') → μ s' < μ s) {n : ℕ} {s s' : σ}
    {es : List ε} (hn : μ s < n) (h : Exhausts round s es s') :
    exhaust round n s = (es, s') := by
  obtain ⟨he, hs⟩ := (exhausts_exhaust hμ n s hn).unique h
  exact Prod.ext he hs

end Transition
