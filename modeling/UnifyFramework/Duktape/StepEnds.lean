import UnifyFramework.Duktape.SteppingRefinement

/-!
# The end of a step

For the plain executor it can be read off an event whether it ends the step that is under way.
By the refinement the executor of the source ends its steps at the same events.
-/

namespace UnifyFramework

namespace Duktape

open Debugger Transition

/-- An event that asks for nothing and is on no line with a breakpoint. -/
def ExecEvent.Quiet (table : BreakpointTable) : ExecEvent → Prop
  | .dispatch line rounds =>
      (∀ round ∈ rounds, round.requests = []) ∧ ∀ b ∈ table.entries, b.line.toNat ≠ line
  | .debuggerStatement _ _ => False
  | .cooperate requests => requests = []
  | _ => True

theorem ExecEvent.Quiet.fixed {table : BreakpointTable} {e : ExecEvent} (h : e.Quiet table) :
    e.Fixed := by
  cases e with
  | dispatch line rounds =>
      intro round hround request hrequest
      rw [h.1 round hround] at hrequest
      cases hrequest
  | debuggerStatement line requests => exact absurd h id
  | cooperate requests =>
      obtain rfl : requests = [] := h
      intro request hrequest
      cases hrequest
  | _ => trivial

namespace Plain

/-- The event ends the step that is under way: it is an instruction on another line of the
activation, it ends the activation, or it enters a function during a step into. -/
def Ends (p : Plain) : ExecEvent → Prop
  | .enter _ | .call _ => p.control.stepType = .into
  | .leave | .ret | .retNative => p.callstack.length = p.control.stepCsindex + 1
  | .tailCall _ =>
      p.callstack.length = p.control.stepCsindex + 1 ∨ p.control.stepType = .into
  | .throwTo count | .throwOut count | .throwSafe count =>
      p.callstack.length ≤ p.control.stepCsindex + count
  | .dispatch line _ =>
      p.control.Stepping (p.callstack.length - 1) ∧ line ≠ p.control.stepStartline
  | _ => False

instance decidableEnds (p : Plain) : (e : ExecEvent) → Decidable (p.Ends e)
  | .enter _ => inferInstanceAs (Decidable (_ = _))
  | .call _ => inferInstanceAs (Decidable (_ = _))
  | .leave => inferInstanceAs (Decidable (_ = _))
  | .ret => inferInstanceAs (Decidable (_ = _))
  | .retNative => inferInstanceAs (Decidable (_ = _))
  | .tailCall _ => inferInstanceAs (Decidable (_ ∨ _))
  | .throwTo _ => inferInstanceAs (Decidable (_ ≤ _))
  | .throwOut _ => inferInstanceAs (Decidable (_ ≤ _))
  | .throwSafe _ => inferInstanceAs (Decidable (_ ≤ _))
  | .dispatch _ _ => inferInstanceAs (Decidable (_ ∧ _))
  | .callNative => inferInstanceAs (Decidable False)
  | .restart => inferInstanceAs (Decidable False)
  | .debuggerStatement _ _ => inferInstanceAs (Decidable False)
  | .cooperate _ => inferInstanceAs (Decidable False)

theorem unwindOne_keeps {p : Plain} (h : p.callstack.length ≠ p.control.stepCsindex + 1) :
    p.unwindOne.control = p.control ∧ p.unwindOne.stops = p.stops ∧
      p.unwindOne.callstack.length = p.callstack.length - 1 := by
  rw [unwindOne]
  cases hstack : p.callstack with
  | nil => simp [hstack]
  | cons act rest =>
      rw [hstack, List.length_cons] at h
      exact ⟨if_neg fun hends => h (by rw [hends.2]), rfl, rfl⟩

theorem unwindOne_ends {p : Plain} (hthread : p.control.stepThread = true)
    (h : p.callstack.length = p.control.stepCsindex + 1) :
    p.unwindOne.control = p.control.setPaused ∧ p.unwindOne.stops = p.stops := by
  rw [unwindOne]
  cases hstack : p.callstack with
  | nil =>
      rw [hstack] at h
      cases h
  | cons act rest =>
      rw [hstack, List.length_cons] at h
      exact ⟨if_pos ⟨hthread, (Nat.succ.inj h).symm⟩, rfl⟩

theorem unwindOne_of_not_stepThread {p : Plain} (h : p.control.stepThread = false) :
    p.unwindOne.control = p.control ∧ p.unwindOne.stops = p.stops := by
  rw [unwindOne]
  split
  · exact ⟨rfl, rfl⟩
  · exact ⟨if_neg (by simp [h]), rfl⟩

theorem unwind_of_not_stepThread {p : Plain} (h : p.control.stepThread = false) (n : ℕ) :
    (p.unwind n).control = p.control ∧ (p.unwind n).stops = p.stops := by
  induction n generalizing p with
  | zero => exact ⟨rfl, rfl⟩
  | succ n ih =>
      obtain ⟨hcontrol, hstops⟩ := unwindOne_of_not_stepThread h
      obtain ⟨hcontrol', hstops'⟩ := ih (p := p.unwindOne) (by rw [hcontrol, h])
      exact ⟨hcontrol'.trans hcontrol, hstops'.trans hstops⟩

theorem unwind_keeps {p : Plain} {n : ℕ} (h : p.control.stepCsindex + n < p.callstack.length) :
    (p.unwind n).control = p.control ∧ (p.unwind n).stops = p.stops := by
  induction n generalizing p with
  | zero => exact ⟨rfl, rfl⟩
  | succ n ih =>
      obtain ⟨hcontrol, hstops, hlength⟩ := unwindOne_keeps (p := p) (by omega)
      have hlt : p.unwindOne.control.stepCsindex + n < p.unwindOne.callstack.length := by
        rw [hcontrol, hlength]
        omega
      obtain ⟨hcontrol', hstops'⟩ := ih hlt
      exact ⟨hcontrol'.trans hcontrol, hstops'.trans hstops⟩

theorem unwind_ends {p : Plain} {n : ℕ} (hthread : p.control.stepThread = true)
    (hlt : p.control.stepCsindex < p.callstack.length)
    (h : p.callstack.length ≤ p.control.stepCsindex + n) :
    (p.unwind n).control.paused = true ∧ (p.unwind n).stops = p.stops := by
  induction n generalizing p with
  | zero => omega
  | succ n ih =>
      by_cases hends : p.callstack.length = p.control.stepCsindex + 1
      · -- The activation ends here, and what is unwound after it changes nothing.
        obtain ⟨hcontrol, hstops⟩ := unwindOne_ends hthread hends
        obtain ⟨hcontrol', hstops'⟩ :=
          unwind_of_not_stepThread (p := p.unwindOne) (by rw [hcontrol]; rfl) n
        refine ⟨?_, hstops'.trans hstops⟩
        rw [unwind, hcontrol', hcontrol]
        rfl
      · obtain ⟨hcontrol, hstops, hlength⟩ := unwindOne_keeps hends
        obtain ⟨hpaused, hstops'⟩ := ih (p := p.unwindOne) (by rwa [hcontrol])
          (by rw [hcontrol, hlength]; omega) (by rw [hcontrol, hlength]; omega)
        exact ⟨hpaused, hstops'.trans hstops⟩

theorem push_keeps {p : Plain} {fn : CompiledFunction} (h : p.control.stepType ≠ .into) :
    (p.push fn).control = p.control :=
  if_neg fun hinto => h hinto.2

theorem push_ends {p : Plain} {fn : CompiledFunction} (hthread : p.control.stepThread = true)
    (h : p.control.stepType = .into) : (p.push fn).control.paused = true := by
  rw [push, if_pos ⟨hthread, h⟩]
  rfl

theorem push_paused {p : Plain} {fn : CompiledFunction} (h : p.control.paused = true) :
    (p.push fn).control.paused = true := by
  rw [push]
  split
  · rfl
  · exact h

/-- An instruction that neither ends the step nor is on a line with a breakpoint. -/
theorem dispatch_quiet {p p' : Plain} {line : ℕ} (hfair : p.control.Fair)
    (hline : ∀ b ∈ p.control.table.entries, b.line.toNat ≠ line)
    (hends : ¬ (p.control.Stepping (p.callstack.length - 1) ∧ line ≠ p.control.stepStartline))
    (hstep : p.dispatch line [] = some p') : p'.control = p.control ∧ p'.stops = p.stops := by
  rw [dispatch] at hstep
  split at hstep
  · rename_i fn lastLine rest hstack
    rw [hstack, List.length_cons, Nat.add_sub_cancel] at hends
    have hhit : ¬ Hit line p.control fn lastLine rest.length := by
      rintro (hhit | ⟨_, b, hb, _, hb'⟩)
      · exact hends hhit
      · exact hline b hb hb'
    rw [if_neg hhit, Option.ite_none_left_eq_some, Bool.not_eq_true] at hstep
    obtain ⟨hpaused, heq⟩ := hstep
    obtain rfl := Option.some.inj heq
    change p.control.paused = false at hpaused
    have hclean : p.control.stateDirty = false := by
      rw [Bool.eq_false_iff]
      intro hdirty
      rw [hfair hdirty] at hpaused
      cases hpaused
    refine ⟨?_, ?_⟩
    · rw [← hclean]
      rfl
    · rw [hpaused]
      exact List.append_nil _
  · cases hstep

theorem dispatch_ends {p p' : Plain} {line : ℕ} {requests : List DukRequest}
    (hends : p.control.Stepping (p.callstack.length - 1) ∧ line ≠ p.control.stepStartline)
    (hstep : p.dispatch line requests = some p') : ∃ more, p'.stops = p.stops ++ line :: more := by
  rw [dispatch] at hstep
  split at hstep
  · rename_i fn lastLine rest hstack
    rw [hstack, List.length_cons, Nat.add_sub_cancel] at hends
    have hhit : Hit line p.control fn lastLine rest.length := .inl hends
    rw [if_pos hhit, Option.ite_none_left_eq_some] at hstep
    obtain rfl := Option.some.inj hstep.2
    exact ⟨_, rfl⟩
  · cases hstep

/-- Without requests and breakpoints nothing happens to a step before it ends. -/
theorem step_quiet {p p' : Plain} {e : ExecEvent} (hfair : p.control.Fair)
    (hquiet : e.Quiet p.control.table)
    (hends : ¬ p.Ends e) (hstep : p.step e = some p') :
    p'.control = p.control ∧ p'.stops = p.stops := by
  cases e with
  | enter fn =>
      obtain rfl := Option.some.inj hstep
      exact ⟨push_keeps hends, rfl⟩
  | call fn =>
      rw [step, Option.ite_none_right_eq_some] at hstep
      obtain rfl := Option.some.inj hstep.2
      exact ⟨push_keeps hends, rfl⟩
  | leave | ret | retNative =>
      rw [step, Option.ite_none_right_eq_some] at hstep
      obtain rfl := Option.some.inj hstep.2
      exact ⟨(unwindOne_keeps hends).1, (unwindOne_keeps hends).2.1⟩
  | tailCall fn =>
      rw [step, Option.ite_none_right_eq_some] at hstep
      obtain rfl := Option.some.inj hstep.2
      obtain ⟨hcontrol, hstops, _⟩ := unwindOne_keeps (p := p) fun h => hends (.inl h)
      refine ⟨(push_keeps ?_).trans hcontrol, hstops⟩
      rw [hcontrol]
      exact fun h => hends (.inr h)
  | callNative =>
      obtain rfl := Option.some.inj hstep
      exact ⟨rfl, rfl⟩
  | throwTo count | throwOut count | throwSafe count =>
      rw [step, Option.ite_none_right_eq_some] at hstep
      obtain rfl := Option.some.inj hstep.2
      exact unwind_keeps (Nat.lt_of_not_le hends)
  | restart =>
      rw [step, Option.ite_none_right_eq_some] at hstep
      obtain rfl := Option.some.inj hstep.2
      exact ⟨rfl, rfl⟩
  | dispatch line rounds =>
      have hnone : rounds.flatMap Round.requests = [] := List.flatMap_eq_nil_iff.mpr hquiet.1
      rw [step, hnone] at hstep
      exact dispatch_quiet hfair hquiet.2 hends hstep
  | debuggerStatement line requests => exact absurd hquiet id
  | cooperate requests =>
      obtain rfl : requests = [] := hquiet
      rw [step, Option.ite_none_right_eq_some] at hstep
      obtain rfl := Option.some.inj hstep.2
      exact ⟨rfl, List.append_nil _⟩

/-- A tail call ends the activation of the step, or a step into in a function above it. -/
theorem tailCall_ends {p : Plain} {fn : CompiledFunction} (hthread : p.control.stepThread = true)
    (hends : p.Ends (.tailCall fn)) :
    (p.unwindOne.push fn).control.paused = true ∧ (p.unwindOne.push fn).stops = p.stops := by
  by_cases hlast : p.callstack.length = p.control.stepCsindex + 1
  · obtain ⟨hcontrol, hstops⟩ := unwindOne_ends hthread hlast
    refine ⟨push_paused ?_, hstops⟩
    rw [hcontrol]
    rfl
  · obtain ⟨hcontrol, hstops, _⟩ := unwindOne_keeps hlast
    exact ⟨push_ends (by rwa [hcontrol]) (by rw [hcontrol]; exact hends.resolve_left hlast), hstops⟩

/-- Where a step ends, the executor stops at the instruction or is paused before the next. -/
theorem step_ends {p p' : Plain} {e : ExecEvent} (hthread : p.control.stepThread = true)
    (hlt : p.control.stepCsindex < p.callstack.length) (hends : p.Ends e)
    (hstep : p.step e = some p') :
    (∃ line rounds more, e = .dispatch line rounds ∧ p'.stops = p.stops ++ line :: more) ∨
      (p'.control.paused = true ∧ p'.stops = p.stops) := by
  cases e with
  | enter fn =>
      obtain rfl := Option.some.inj hstep
      exact .inr ⟨push_ends hthread hends, rfl⟩
  | call fn =>
      rw [step, Option.ite_none_right_eq_some] at hstep
      obtain rfl := Option.some.inj hstep.2
      exact .inr ⟨push_ends hthread hends, rfl⟩
  | leave | ret | retNative =>
      rw [step, Option.ite_none_right_eq_some] at hstep
      obtain rfl := Option.some.inj hstep.2
      obtain ⟨hcontrol, hstops⟩ := unwindOne_ends hthread hends
      refine .inr ⟨?_, hstops⟩
      rw [hcontrol]
      rfl
  | tailCall fn =>
      rw [step, Option.ite_none_right_eq_some] at hstep
      obtain rfl := Option.some.inj hstep.2
      exact .inr (tailCall_ends hthread hends)
  | throwTo count | throwOut count | throwSafe count =>
      rw [step, Option.ite_none_right_eq_some] at hstep
      obtain rfl := Option.some.inj hstep.2
      exact .inr (unwind_ends hthread hlt hends)
  | dispatch line rounds =>
      obtain ⟨more, hmore⟩ := dispatch_ends hends hstep
      exact .inl ⟨line, rounds, more, rfl, hmore⟩
  | callNative => exact absurd hends id
  | restart => exact absurd hends id
  | debuggerStatement line requests => exact absurd hends id
  | cooperate requests => exact absurd hends id

end Plain

namespace Executor

variable {s m : Executor}

/-- The event does not end the step, and is none that the executor fails to see. -/
def GoesOn (s : Executor) (e : ExecEvent) : Prop := s.Outside e ∧ ¬ s.plain.Ends e

instance (s : Executor) (e : ExecEvent) : Decidable (s.GoesOn e) :=
  inferInstanceAs (Decidable (_ ∧ _))

/-- Nothing happens to a step before it ends. -/
theorem Kept.run_quiet {fs : List ExecEvent} (h : s.Kept)
    (hquiet : ∀ f ∈ fs, f.Quiet s.control.table) (hgo : run step s fs = some m)
    (hnot : Along step GoesOn s fs) :
    m.Kept ∧ m.control.plain = s.control.plain ∧ stopsOf m.sent = stopsOf s.sent := by
  induction fs generalizing s with
  | nil =>
      obtain rfl := Option.some.inj hgo
      exact ⟨h, rfl, rfl⟩
  | cons f fs ih =>
      obtain ⟨hfirst, hrest⟩ := List.forall_mem_cons.mp hquiet
      obtain ⟨t, hstep, hgo'⟩ := run_cons_eq_some_iff.mp hgo
      obtain ⟨hkept, hplain⟩ := Kept.simulation s f t h ⟨hfirst.fixed, hnot.1.1⟩ hstep
      obtain ⟨hcontrol, hstops⟩ := Plain.step_quiet h.1.fair hfirst hnot.1.2 hplain
      have htable : t.control.table = s.control.table :=
        (congrArg Control.table hcontrol : t.control.plain.table = s.control.plain.table)
      rw [← htable] at hrest
      obtain ⟨hkept', hcontrol', hstops'⟩ := ih hkept hrest hgo' (hnot.2 t hstep)
      exact ⟨hkept', hcontrol'.trans hcontrol, hstops'.trans hstops⟩

def stepped : List ExecEvent :=
  [.enter ⟨none, 1, 3, []⟩, .dispatch 1 [⟨false, [.stepOver]⟩, ⟨false, []⟩]]

def calledOver : List ExecEvent :=
  [.call ⟨none, 2, 2, []⟩, .dispatch 2 [⟨false, []⟩], .ret, .dispatch 1 [⟨false, []⟩]]

end Executor

end Duktape

end UnifyFramework
