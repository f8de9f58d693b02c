import Mathlib.Logic.Basic
import Mathlib.Data.List.Basic

/-!
# Runs of partial step functions

A step takes a state and an event and is `none` where the event cannot happen.
`run step s es` is the state after the events `es`, if all of them can happen one
after the other. The states of a run are the ends of its initial parts, so what is
shown for the end of every run holds in every state of every run. An invariant is
shown step by step; `Along step cond s es` says that every event of a run meets a
condition in the state in which it happens, and gives the invariant rule for the
runs that keep to the condition.
-/

namespace Transition

variable {σ ε : Type*}

def run (step : σ → ε → Option σ) : σ → List ε → Option σ
  | s, [] => some s
  | s, e :: es => (step s e).bind fun s' => run step s' es

def Along (step : σ → ε → Option σ) (cond : σ → ε → Prop) : σ → List ε → Prop
  | _, [] => True
  | s, e :: es => cond s e ∧ ∀ s' ∈ step s e, Along step cond s' es

instance decidableAlong (step : σ → ε → Option σ) (cond : σ → ε → Prop)
    [∀ s e, Decidable (cond s e)] : (s : σ) → (es : List ε) → Decidable (Along step cond s es)
  | _, [] => inferInstanceAs (Decidable True)
  | s, e :: es =>
      have : ∀ s', Decidable (Along step cond s' es) := fun s' => decidableAlong step cond s' es
      inferInstanceAs (Decidable (cond s e ∧ ∀ s' ∈ step s e, Along step cond s' es))

variable {step : σ → ε → Option σ}

theorem run_cons_eq_some_iff {s s' : σ} {e : ε} {es : List ε} :
    run step s (e :: es) = some s' ↔ ∃ m, step s e = some m ∧ run step m es = some s' :=
  Option.bind_eq_some_iff

theorem run_append (s : σ) (es fs : List ε) :
    run step s (es ++ fs) = (run step s es).bind fun s' => run step s' fs := by
  induction es generalizing s with
  | nil => rfl
  | cons e es ih =>
      rw [List.cons_append, run, run, Option.bind_assoc]
      exact Option.bind_congr fun s' _ => ih s'

theorem run_concat {s t u : σ} {es : List ε} {e : ε} (hrun : run step s es = some t)
    (hstep : step t e = some u) : run step s (es ++ [e]) = some u := by
  rw [run_append, hrun, Option.bind_some, run, hstep]
  rfl

theorem run_invariant_along {C : σ → ε → Prop} {I : σ → Prop}
    (hstep : ∀ s e s', I s → C s e → step s e = some s' → I s') {s s' : σ} {es : List ε}
    (hs : I s) (hcond : Along step C s es) (hrun : run step s es = some s') : I s' := by
  induction es generalizing s with
  | nil =>
      rw [← Option.some.inj hrun]
      exact hs
  | cons e es ih =>
      obtain ⟨m, hm, hrest⟩ := run_cons_eq_some_iff.mp hrun
      exact ih (hstep s e m hs hcond.1 hm) (hcond.2 m hm) hrest

/-- Two conditions that agree wherever an invariant holds agree along a run. -/
theorem along_iff_along {C D : σ → ε → Prop} {I : σ → Prop}
    (hstep : ∀ s e s', I s → step s e = some s' → I s' ∧ (C s e ↔ D s e)) {s s' : σ} {es : List ε}
    (hs : I s) (hrun : run step s es = some s') : Along step C s es ↔ Along step D s es := by
  induction es generalizing s with
  | nil => rfl
  | cons e es ih =>
      obtain ⟨m, hm, hrest⟩ := run_cons_eq_some_iff.mp hrun
      obtain ⟨hI, hiff⟩ := hstep s e m hs hm
      simp only [Along, hm, Option.mem_def, Option.some.injEq, forall_eq', hiff, ih hI hrest]

/-- Two conditions that agree wherever an invariant holds agree along every sequence of
events, also one that cannot happen to its end. The invariant has to be kept only by steps
that meet the condition. -/
theorem along_congr {C D : σ → ε → Prop} {I : σ → Prop}
    (hiff : ∀ s e, I s → (C s e ↔ D s e))
    (hstep : ∀ s e s', I s → D s e → step s e = some s' → I s') {s : σ} (es : List ε)
    (hs : I s) : Along step C s es ↔ Along step D s es := by
  induction es generalizing s with
  | nil => rfl
  | cons e es ih =>
      constructor
      · rintro ⟨hC, hrest⟩
        have hD := (hiff s e hs).mp hC
        exact ⟨hD, fun s' hs' => (ih (hstep s e s' hs hD hs')).mp (hrest s' hs')⟩
      · rintro ⟨hD, hrest⟩
        exact ⟨(hiff s e hs).mpr hD,
          fun s' hs' => (ih (hstep s e s' hs hD hs')).mpr (hrest s' hs')⟩

theorem along_of_forall_mem {C : ε → Prop} {es : List ε} (h : ∀ e ∈ es, C e) (s : σ) :
    Along step (fun _ => C) s es := by
  induction es generalizing s with
  | nil => trivial
  | cons e es ih =>
      exact ⟨h e List.mem_cons_self, fun s' _ => ih (fun f hf => h f (List.mem_cons_of_mem _ hf)) s'⟩

theorem along_true (s : σ) (es : List ε) : Along step (fun _ _ => True) s es := by
  induction es generalizing s with
  | nil => trivial
  | cons e es ih => exact ⟨trivial, fun s' _ => ih s'⟩

theorem run_invariant {I : σ → Prop}
    (hstep : ∀ s e s', I s → step s e = some s' → I s') {s s' : σ} {es : List ε}
    (hs : I s) (hrun : run step s es = some s') : I s' :=
  run_invariant_along (fun s e s' h _ => hstep s e s' h) hs (along_true s es) hrun

/-- A measure that falls with every step bounds the runs that keep to the condition. -/
theorem run_length_le {C : σ → ε → Prop} {I : σ → Prop} {μ : σ → ℕ}
    (hstep : ∀ s e s', I s → C s e → step s e = some s' → I s' ∧ μ s' < μ s) {s s' : σ}
    {es : List ε} (hs : I s) (hcond : Along step C s es) (hrun : run step s es = some s') :
    es.length + μ s' ≤ μ s := by
  induction es generalizing s with
  | nil =>
      obtain rfl := Option.some.inj hrun
      exact Nat.le_of_eq (Nat.zero_add _)
  | cons e es ih =>
      obtain ⟨m, hm, hrest⟩ := run_cons_eq_some_iff.mp hrun
      obtain ⟨hI, hlt⟩ := hstep s e m hs hcond.1 hm
      have hle := ih hI (hcond.2 m hm) hrest
      rw [List.length_cons]
      omega

/-- A simulation shown step by step carries every run over that keeps to the condition. -/
theorem run_simulation {τ : Type*} {step' : τ → ε → Option τ} {f : σ → τ} {C : σ → ε → Prop}
    {I : σ → Prop}
    (hstep : ∀ s e s', I s → C s e → step s e = some s' → I s' ∧ step' (f s) e = some (f s'))
    {s s' : σ} {es : List ε} (hs : I s) (hcond : Along step C s es)
    (hrun : run step s es = some s') : I s' ∧ run step' (f s) es = some (f s') := by
  induction es generalizing s with
  | nil =>
      obtain rfl := Option.some.inj hrun
      exact ⟨hs, rfl⟩
  | cons e es ih =>
      obtain ⟨m, hm, hrun'⟩ := run_cons_eq_some_iff.mp hrun
      obtain ⟨hI, hm'⟩ := hstep s e m hs hcond.1 hm
      obtain ⟨hI', htail⟩ := ih hI (hcond.2 m hm) hrun'
      exact ⟨hI', run_cons_eq_some_iff.mpr ⟨f m, hm', htail⟩⟩

/-- In the history, `b` happens somewhere after `a`. -/
def After {α : Type*} (a b : α) (history : List α) : Prop := [a, b].Sublist history

instance {α : Type*} [DecidableEq α] (a b : α) (history : List α) :
    Decidable (After a b history) :=
  inferInstanceAs (Decidable ([a, b].Sublist history))

theorem not_after_nil {α : Type*} (a b : α) : ¬ After a b [] := by
  intro h
  cases h

theorem after_concat_iff {α : Type*} {a b x : α} {history : List α} :
    After a b (history ++ [x]) ↔ After a b history ∨ (a ∈ history ∧ x = b) := by
  constructor
  · intro h
    obtain ⟨l₁, l₂, hsplit, h₁, h₂⟩ := List.sublist_append_iff.mp h
    rcases List.sublist_singleton.mp h₂ with rfl | rfl
    · rw [List.append_nil] at hsplit
      rw [← hsplit] at h₁
      exact Or.inl h₁
    · change [a] ++ [b] = l₁ ++ [x] at hsplit
      obtain ⟨rfl, hx⟩ := List.append_inj' hsplit rfl
      exact Or.inr ⟨List.singleton_sublist.mp h₁, (List.singleton_inj.mp hx).symm⟩
  · rintro (h | ⟨ha, rfl⟩)
    · exact h.trans (List.sublist_append_left _ _)
    · exact (List.singleton_sublist.mpr ha).append (List.Sublist.refl [x])

/-- What happens now does not come after anything unless it is `b`. -/
theorem not_after_concat {α : Type*} {a b x : α} {history : List α} (h : ¬ After a b history)
    (hx : x ≠ b) : ¬ After a b (history ++ [x]) := by
  rw [after_concat_iff]
  rintro (hafter | ⟨_, heq⟩)
  · exact h hafter
  · exact hx heq

end Transition
