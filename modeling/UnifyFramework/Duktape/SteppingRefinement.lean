import UnifyFramework.Duktape.SteppingInvariant

/-!
# The executor stops where the plain one does

At an instruction the two executors differ most: the plain one checks the line and processes all
requests, the other goes through interrupts and rechecks, each of which sees only what the
counter and the flags let it see. After the first interrupt the executor does not stop at the
instruction again, so that the rest of the dispatch loop only processes requests.
-/

namespace UnifyFramework

namespace Duktape

open Debugger Transition

namespace Executor

theorem announce_eq (line : ℕ) (poll : Bool) (c : Control) :
    (c.announce line poll).1 = { c with stateDirty := false } ∧
      stopsOf (c.announce line poll).2 = stopsOf [(c.paused, line)] := by
  rw [Control.announce]
  cases hsend : c.stateDirty || c.paused || poll with
  | true => exact ⟨rfl, rfl⟩
  | false =>
      obtain ⟨paused, dirty, _⟩ := c
      simp only [Bool.or_eq_false_iff] at hsend
      obtain ⟨⟨rfl, rfl⟩, _⟩ := hsend
      exact ⟨rfl, rfl⟩

/-- What an interrupt does, with the status notifications reduced to the stops. -/
theorem interrupt_cases {s m : Executor} {line : ℕ} {round : Round} {restart : Bool}
    {act : ExecActivation} {rest : List ExecActivation} {c : Control}
    {processed : Control × List Status} (hstack : s.callstack = act :: rest)
    (hc : c = { checkLine line s.control act rest.length with stateDirty := false })
    (hprocessed : processed = c.processMessages line rest.length round.requests)
    (hint : s.interrupt line round = some (m, restart)) :
    processed.1.paused = false ∧ m.control = processed.1 ∧
      m.callstack = markLine line s.control act rest.length :: rest ∧
      stopsOf m.sent = stopsOf s.sent ++ (stopsOf [(c.paused, line)] ++ stopsOf processed.2) ∧
      m.forceRestart = s.forceRestart ∧
      (act.breakpointActive = true ∨ m.control.Stepping rest.length → m.interruptCounter = 0) ∧
      restart = !round.requests.isEmpty := by
  obtain ⟨hannounced, hstops⟩ := announce_eq line round.poll
    (checkLine line s.control act rest.length)
  rw [interrupt, hstack] at hint
  dsimp only at hint
  rw [hannounced, ← hc, ← hprocessed, Option.ite_none_right_eq_some, Bool.and_eq_true,
    Bool.not_eq_true'] at hint
  obtain ⟨⟨_, hpaused⟩, heq⟩ := hint
  obtain ⟨rfl, rfl⟩ := Prod.mk.inj (Option.some.inj heq)
  refine ⟨hpaused, rfl, rfl, ?_, rfl, fun h => if_pos h, rfl⟩
  rw [stopsOf_append, stopsOf_append, hstops, hc]

/-- The executor is at an instruction of the line in the activation, and will not stop there
any more. A step that is under way in the activation is on the line it was started on, but it
may still have to be remembered. -/
structure Passing (line : ℕ) (s : Executor) (act : ExecActivation) (rest : List ExecActivation)
    (fn : CompiledFunction) : Prop where
  stack : s.callstack = act :: rest
  func : act.func = some fn
  noRestart : s.forceRestart = false
  unpaused : s.control.paused = false
  clean : s.control.stateDirty = false
  ready : s.Ready
  below : LinesKnown s.control rest
  step : s.control.stepThread = true → StepAt s.control ({ act with prevLine := line } :: rest)
  marked : s.control.breakpointsActive ≠ [] → act.prevLine = line

variable {line : ℕ} {s s' m : Executor} {act : ExecActivation} {rest : List ExecActivation}
  {fn : CompiledFunction} {round : Round} {rounds : List Round} {restart : Bool}

theorem checkLine_table (line : ℕ) (c : Control) (act : ExecActivation) (csindex : ℕ) :
    (checkLine line c act csindex).table = c.table ∧
      (checkLine line c act csindex).breakpointsActive = c.breakpointsActive := by
  rw [checkLine]
  split <;> exact ⟨rfl, rfl⟩

theorem markLine_of_checked {c : Control} {csindex : ℕ} (h : Checked c act csindex) :
    markLine line c act csindex = { act with prevLine := line } :=
  if_pos h

theorem stepAt_markLine {c : Control}
    (h : c.stepThread = true → StepAt c ({ act with prevLine := line } :: rest))
    (hthread : c.stepThread = true) :
    StepAt c (markLine line c act rest.length :: rest) := by
  by_cases hchecked : Checked c act rest.length
  · rw [markLine_of_checked hchecked]
    exact h hthread
  · cases h hthread with
    | here hindex => exact absurd (.inr ⟨hthread, hindex⟩) hchecked
    | above hnative hbelow => exact .above (by rwa [markLine_func]) hbelow

theorem markLine_breakpointActive (line : ℕ) (c : Control) (act : ExecActivation)
    (csindex : ℕ) : (markLine line c act csindex).breakpointActive = act.breakpointActive := by
  rw [markLine]
  split <;> rfl

theorem processMessages_clean {c : Control} {csindex : ℕ} (h : c.stateDirty = false)
    (requests : List DukRequest) :
    (c.processMessages line csindex requests).1.stateDirty = false := by
  have htold : c.Told [(c.paused, line)] := fun _ => rfl
  exact (Control.processMessages_told line csindex h htold requests).1

theorem passing_interrupt (hstack : s.callstack = act :: rest) (hfunc : act.func = some fn)
    (hforce : s.forceRestart = false) (hready : s.Ready) (hbelow : LinesKnown s.control rest)
    (hstep : (checkLine line s.control act rest.length).stepThread = true →
      StepAt (checkLine line s.control act rest.length) ({ act with prevLine := line } :: rest))
    (hkeeps : ∀ request ∈ round.requests, request.KeepsBreakpoints)
    (hint : s.interrupt line round = some (m, restart)) :
    m.Passing line (markLine line s.control act rest.length) rest fn := by
  obtain ⟨hflag, hactive, _⟩ := hready act rest fn hstack hfunc
  obtain ⟨htable, hsame⟩ := checkLine_table line s.control act rest.length
  obtain ⟨hpaused, hcontrol, hstack', _, hforce', hcounter, _⟩ :=
    interrupt_cases hstack rfl rfl hint
  have hmoved := Control.moved_processMessages line rest.length
    { checkLine line s.control act rest.length with stateDirty := false } hkeeps
  rw [← hcontrol] at hmoved hpaused
  have hactive' : m.control.breakpointsActive = s.control.breakpointsActive :=
    hmoved.active.trans hsame
  have htable' : m.control.table = s.control.table := hmoved.table.trans htable
  refine ⟨hstack', (markLine_func ..).trans hfunc, hforce'.trans hforce, hpaused, ?_, ?_,
    hbelow.congr htable', fun hthread => ?_, fun hne => ?_⟩
  · rw [hcontrol]
    exact processMessages_clean rfl round.requests
  · intro act' rest' fn' hstack'' hfunc''
    obtain ⟨rfl, rfl⟩ := List.cons.inj (hstack'.symm.trans hstack'')
    obtain rfl := Option.some.inj (hfunc.symm.trans ((markLine_func ..).symm.trans hfunc''))
    rw [markLine_breakpointActive, Control.inside, hactive', htable']
    refine ⟨hflag, hactive, fun h => hcounter ?_⟩
    rcases h with hne | hpaused' | hstepping
    · refine .inl (hflag.trans ?_)
      rw [Bool.not_eq_true', List.isEmpty_eq_false_iff]
      exact hne
    · rw [hpaused] at hpaused'
      cases hpaused'
    · exact .inr hstepping
  · -- A step that is under way is the one from before, or it has been started here.
    rcases hmoved.step hthread with ⟨hold, htype, hindex, hline⟩ | ⟨_, hindex, hline⟩
    · exact ((hstep hold).congr htype hindex hline).of_top (markLine_func ..) rfl
    · exact .here hindex (by rw [markLine_func, hfunc]; rfl) fun _ => hline.symm
  · rw [hactive'] at hne
    refine congrArg ExecActivation.prevLine (markLine_of_checked (.inl (hflag.trans ?_)))
    rw [Bool.not_eq_true', List.isEmpty_eq_false_iff]
    exact hne

/-- While the executor passes an instruction, no check stops it. -/
theorem Passing.checkLine (h : s.Passing line act rest fn) :
    checkLine line s.control act rest.length = s.control := by
  refine if_neg ?_
  rintro ⟨_, hline, ⟨hstepping, hother⟩ | ⟨b, hb, _⟩⟩
  · cases h.step hstepping.2.1 with
    | here _ _ hstart => exact hother (hstart hstepping.1)
    | above _ hbelow => exact hbelow.lt.ne hstepping.2.2
  · exact hline (h.marked (List.ne_nil_of_mem hb))

theorem Passing.recheck (h : s.Passing line act rest fn) :
    s.recheck.Passing line act rest fn ∧ s.recheck.control = s.control := by
  obtain ⟨hflag, hactive, _⟩ := h.ready act rest fn h.stack h.func
  have hcontrol : rechecked fn rest.length s.control = s.control := by
    have hfunc : ({ act with prevLine := line } : ExecActivation).func = some fn := h.func
    rw [rechecked_of_stepAt hfunc h.step, ← hactive]
  have hact : { act with breakpointActive := !s.control.breakpointsActive.isEmpty } = act := by
    rw [← hflag]
  have hsame := recheck_of_func h.stack h.func
  rw [hcontrol, hact] at hsame
  have hready := ready_recheck s
  rw [hsame] at hready ⊢
  exact ⟨⟨rfl, h.func, h.noRestart, h.unpaused, h.clean, hready, h.below, h.step, h.marked⟩, rfl⟩

theorem Passing.interrupt (h : s.Passing line act rest fn)
    (hkeeps : ∀ request ∈ round.requests, request.KeepsBreakpoints)
    (hint : s.interrupt line round = some (m, restart)) :
    m.Passing line (markLine line s.control act rest.length) rest fn ∧
      m.control = (s.control.processMessages line rest.length round.requests).1 ∧
      stopsOf m.sent = stopsOf s.sent ++
        stopsOf (s.control.processMessages line rest.length round.requests).2 ∧
      restart = !round.requests.isEmpty := by
  have hstep := h.step
  rw [← h.checkLine] at hstep
  have hpassing :=
    passing_interrupt h.stack h.func h.noRestart h.ready h.below hstep hkeeps hint
  have hclean : s.control = { Executor.checkLine line s.control act rest.length with
      stateDirty := false } := by
    rw [h.checkLine, ← h.clean]
  obtain ⟨_, hcontrol, _, hstops, _, _, hrestart⟩ := interrupt_cases h.stack hclean rfl hint
  rw [h.unpaused] at hstops
  exact ⟨hpassing, hcontrol, hstops, hrestart⟩

structure Passed (line : ℕ) (c : Control) (stops : List ℕ) (requests : List DukRequest)
    (rest : List ExecActivation) (fn : CompiledFunction) (s' : Executor) : Prop where
  passing : ∃ act, s'.Passing line act rest fn ∧
    (s'.control.stepThread = true → StepAt s'.control (act :: rest))
  control : s'.control = (c.processMessages line rest.length requests).1
  stops : stopsOf s'.sent = stops ++ stopsOf (c.processMessages line rest.length requests).2

theorem Passed.prepend {c c' : Control} {stops stops' : List ℕ} {a b : List DukRequest}
    (h : Passed line c' stops' b rest fn s')
    (hcontrol : c' = (c.processMessages line rest.length a).1)
    (hstops : stops' = stops ++ stopsOf (c.processMessages line rest.length a).2) :
    Passed line c stops (a ++ b) rest fn s' where
  passing := h.passing
  control := by rw [h.control, Control.processMessages_append, hcontrol]
  stops := by
    rw [h.stops, Control.processMessages_append, stopsOf_append, hcontrol, hstops,
      List.append_assoc]

/-- The loop goes on after an interrupt that has passed the instruction, or ends with it. -/
theorem Passing.passed (h : m.Passing line act rest fn)
    (hstep : restart = false → m.control.stepThread = true → StepAt m.control (act :: rest))
    (hgo : (if restart then m.recheck.dispatchLoop line rounds
      else if rounds = [] then some m else none) = some s')
    (hlater : m.recheck.Passing line act rest fn →
      m.recheck.dispatchLoop line rounds = some s' →
        Passed line m.recheck.control (stopsOf m.recheck.sent) (rounds.flatMap Round.requests)
          rest fn s') :
    Passed line m.control (stopsOf m.sent) (rounds.flatMap Round.requests) rest fn s' := by
  cases restart with
  | true =>
      obtain ⟨hpassing, hcontrol⟩ := h.recheck
      have hpassed := hlater hpassing hgo
      rwa [hcontrol, recheck_sent] at hpassed
  | false =>
      rw [if_neg Bool.false_ne_true, Option.ite_none_right_eq_some] at hgo
      obtain ⟨rfl, heq⟩ := hgo
      obtain rfl := Option.some.inj heq
      exact ⟨⟨act, h, hstep rfl⟩, rfl, (List.append_nil _).symm⟩

/-- Where no interrupt is due, no step has to be remembered. -/
theorem stepAt_of_ready (hready : s.Ready) (hstack : s.callstack = act :: rest)
    (hfunc : act.func = some fn) (hcounter : 0 < s.interruptCounter) {act' : ExecActivation}
    (hstep : StepAt s.control (act' :: rest)) (hthread : s.control.stepThread = true)
    {act'' : ExecActivation} (hfunc' : act''.func = act'.func) :
    StepAt s.control (act'' :: rest) := by
  cases hstep with
  | here hindex hsome =>
      refine .here hindex (by rwa [hfunc']) fun htype => ?_
      have := (hready act rest fn hstack hfunc).2.2 (.inr (.inr ⟨htype, hthread, hindex⟩))
      omega
  | above hnative hbelow => exact .above (by rwa [hfunc']) hbelow

theorem Ready.counter (h : s.Ready) (hcounter : 0 < s.interruptCounter) (n : ℕ) :
    Ready { s with interruptCounter := n } := by
  intro act rest fn hstack hfunc
  obtain ⟨hflag, hactive, hneeded⟩ := h act rest fn hstack hfunc
  refine ⟨hflag, hactive, fun h => ?_⟩
  have := hneeded h
  omega

/-- The rest of the dispatch loop only processes requests. -/
theorem Passing.dispatchLoop (h : s.Passing line act rest fn)
    (hkeeps : ∀ round ∈ rounds, ∀ request ∈ round.requests, request.KeepsBreakpoints)
    (hloop : s.dispatchLoop line rounds = some s') :
    Passed line s.control (stopsOf s.sent) (rounds.flatMap Round.requests) rest fn s' := by
  induction rounds generalizing s act with
  | nil =>
      rw [Executor.dispatchLoop, Option.ite_none_right_eq_some] at hloop
      obtain ⟨hcounter, heq⟩ := hloop
      obtain rfl := Option.some.inj heq
      refine ⟨⟨act, ⟨h.stack, h.func, h.noRestart, h.unpaused, h.clean,
        h.ready.counter hcounter _, h.below, h.step, h.marked⟩, fun hthread => ?_⟩, rfl,
        (List.append_nil _).symm⟩
      exact stepAt_of_ready h.ready h.stack h.func hcounter (h.step hthread) hthread rfl
  | cons round rounds ih =>
      obtain ⟨hfirst, hrest⟩ := List.forall_mem_cons.mp hkeeps
      rw [Executor.dispatchLoop, Option.ite_none_left_eq_some] at hloop
      obtain ⟨⟨m, restart⟩, hint, hgo⟩ := Option.bind_eq_some_iff.mp hloop.2
      have hsynced : s.synced = s := if_neg (by simp [h.noRestart])
      rw [hsynced] at hint
      obtain ⟨hpassing, hcontrol, hstops, hrestart⟩ := h.interrupt hfirst hint
      refine (hpassing.passed (fun hend hthread => ?_) hgo fun hp => ih hp hrest).prepend
        hcontrol hstops
      have hnone : round.requests = [] := by
        rw [hend, eq_comm, Bool.not_eq_false', List.isEmpty_iff] at hrestart
        exact hrestart
      have hsame : m.control = s.control := by
        rw [hcontrol, hnone]
        rfl
      rw [hsame] at hthread ⊢
      exact stepAt_markLine h.step hthread

/-- Where the flags and lines are up to date, the checks of an interrupt find what the plain
executor finds. -/
theorem checkLine_eq_of_sound (hsound : s.Sound) (hready : s.Ready)
    (hstack : s.callstack = act :: rest) (hfunc : act.func = some fn) :
    checkLine line s.control act rest.length =
      if Plain.Hit line s.control fn act.lastLine rest.length then s.control.setPaused
      else s.control := by
  obtain ⟨hflag, hactive, _⟩ := hready act rest fn hstack hfunc
  have hlines : s.control.breakpointsActive ≠ [] → act.prevLine = act.lastLine := by
    rw [hactive]
    exact hsound.lines act (by rw [hstack]; exact List.mem_cons_self) fn hfunc
  refine if_congr ⟨?_, ?_⟩ rfl rfl
  · rintro ⟨_, hline, hstepping | ⟨b, hb, _, hb'⟩⟩
    · exact .inl hstepping
    · rw [hlines (List.ne_nil_of_mem hb)] at hline
      rw [hactive, Control.inside, List.mem_filter] at hb
      exact .inr ⟨hline, b, hb.1, hb.2, hb'.symm⟩
  · rintro (⟨hstepping, hother⟩ | ⟨hother, b, hb, hhas, hb'⟩)
    · refine ⟨.inr ⟨hstepping.2.1, hstepping.2.2⟩, ?_, .inl ⟨hstepping, hother⟩⟩
      have hstep := hsound.step hstepping.2.1
      rw [hstack] at hstep
      cases hstep with
      | here _ _ hstart =>
          rw [hstart hstepping.1]
          exact hother.symm
      | above _ hbelow => exact absurd hstepping.2.2 hbelow.lt.ne
    · have hmem : b ∈ s.control.breakpointsActive := by
        rw [hactive, Control.inside, List.mem_filter]
        exact ⟨hb, hhas⟩
      have hprev := hlines (List.ne_nil_of_mem hmem)
      refine ⟨.inl ?_, hprev ▸ hother, .inr ⟨b, hmem, ?_, hb'.symm⟩⟩
      · rw [hflag, Bool.not_eq_true', List.isEmpty_eq_false_iff]
        exact List.ne_nil_of_mem hmem
      · rw [hprev, hb']
        exact hother

theorem Kept.synced (h : s.Kept) :
    s.synced.Sound ∧ s.synced.Ready ∧ s.synced.forceRestart = false ∧ s.synced.plain = s.plain := by
  cases hforce : s.forceRestart with
  | false =>
      have hsame : s.synced = s := if_neg (by simp [hforce])
      rw [hsame]
      exact ⟨h.1, h.2 hforce, hforce, rfl⟩
  | true =>
      have hsame : s.synced = recheck { s with forceRestart := false } := if_pos hforce
      have hsound : Sound { s with forceRestart := false } :=
        ⟨h.1.fair, Bool.noConfusion, h.1.lines, h.1.step⟩
      rw [hsame]
      exact ⟨hsound.recheck.1, ready_recheck _, recheck_forceRestart _, hsound.recheck.2⟩

theorem Passing.executed (h : s.Passing line act rest fn)
    (hstep : s.control.stepThread = true → StepAt s.control (act :: rest)) :
    (s.executed line).Kept ∧
      (s.executed line).plain =
        ⟨s.control.plain, ⟨some fn, line⟩ :: rest.map ExecActivation.plain, stopsOf s.sent⟩ := by
  obtain ⟨hflag, hactive, hcounter⟩ := h.ready act rest fn h.stack h.func
  have hsame : s.executed line = { s with callstack := { act with lastLine := line } :: rest } := by
    rw [Executor.executed, h.stack]
  rw [hsame]
  refine ⟨⟨⟨fun hdirty => ?_, fun hforce => ?_, ?_, fun hthread => ?_⟩, fun _ => ?_⟩, ?_⟩
  · rw [h.clean] at hdirty
    cases hdirty
  · rw [h.noRestart] at hforce
    cases hforce
  · refine List.forall_mem_cons.mpr ⟨fun fn' hfunc' hne => ?_, h.below⟩
    obtain rfl := Option.some.inj (h.func.symm.trans hfunc')
    exact h.marked (by rwa [hactive])
  · exact (hstep hthread).of_top rfl rfl
  · intro act' rest' fn' hstack' hfunc'
    obtain ⟨rfl, rfl⟩ := List.cons.inj hstack'
    obtain rfl := Option.some.inj (h.func.symm.trans hfunc')
    exact ⟨hflag, hactive, hcounter⟩
  · rw [plain, List.map_cons, ExecActivation.plain, h.func]

/-- A recheck that is still to be done is done before the first interrupt. -/
theorem Kept.dispatchLoop_synced (h : s.Kept) (line : ℕ) (rounds : List Round) :
    s.dispatchLoop line rounds = s.synced.dispatchLoop line rounds := by
  cases hforce : s.forceRestart with
  | false =>
      have hsame : s.synced = s := if_neg (by simp [hforce])
      rw [hsame]
  | true =>
      have hcounter := h.1.force hforce
      have hsame : s.synced = recheck { s with forceRestart := false } := if_pos hforce
      have hcounter' : s.synced.interruptCounter = 0 := by
        rw [hsame]
        exact recheck_interruptCounter hcounter
      cases rounds with
      | nil => rw [dispatchLoop, dispatchLoop, hcounter, hcounter', if_neg (Nat.lt_irrefl 0)]
               rfl
      | cons round rounds =>
          have hagain : s.synced.synced = s.synced := if_neg (by simp [h.synced.2.2.1])
          rw [dispatchLoop, dispatchLoop, hcounter, hcounter', hagain]

/-- A step that is not stopped at the line is on the line it was started on. -/
theorem stepAt_checkLine (hstep : s.control.stepThread = true → StepAt s.control (act :: rest))
    (hthread : (checkLine line s.control act rest.length).stepThread = true) :
    StepAt (checkLine line s.control act rest.length) ({ act with prevLine := line } :: rest) := by
  by_cases hhit : Checked s.control act rest.length ∧ Hit line s.control act rest.length
  · rw [checkLine, if_pos hhit] at hthread
    cases hthread
  · have hsame : checkLine line s.control act rest.length = s.control := if_neg hhit
    rw [hsame] at hthread ⊢
    cases hstep hthread with
    | here hindex hfunc hstart =>
        refine .here hindex hfunc fun htype => ?_
        by_contra hother
        refine hhit ⟨.inr ⟨hthread, hindex⟩, ?_, .inl ⟨⟨htype, hthread, hindex⟩, hother⟩⟩
        rw [hstart htype]
        exact Ne.symm hother
    | above hnative hbelow => exact .above hnative hbelow

/-- As long as the counter runs, there is nothing to stop for. -/
theorem passing_of_interruptCounter (hsound : s.Sound) (hready : s.Ready)
    (hforce : s.forceRestart = false) (hstack : s.callstack = act :: rest)
    (hfunc : act.func = some fn) (hcounter : 0 < s.interruptCounter) :
    s.Passing line act rest fn := by
  have hstep := hsound.step
  have hlines := hsound.lines
  rw [hstack] at hstep hlines
  have hnot : ¬ (s.control.breakpointsActive ≠ [] ∨ s.control.paused = true ∨
      s.control.Stepping rest.length) := fun hneeded => by
    have := (hready act rest fn hstack hfunc).2.2 hneeded
    omega
  exact
    { stack := hstack
      func := hfunc
      noRestart := hforce
      unpaused := Bool.eq_false_iff.mpr fun hpaused => hnot (.inr (.inl hpaused))
      clean := Bool.eq_false_iff.mpr fun hdirty => hnot (.inr (.inl (hsound.fair hdirty)))
      ready := hready
      below := (List.forall_mem_cons.mp hlines).2
      step := fun hthread =>
        stepAt_of_ready hready hstack hfunc hcounter (hstep hthread) hthread rfl
      marked := fun hne => absurd (.inl hne) hnot }

/-- The dispatch loop checks the line once and processes the requests of all rounds. -/
theorem dispatchLoop_passed (hsound : s.Sound) (hready : s.Ready) (hforce : s.forceRestart = false)
    (hstack : s.callstack = act :: rest) (hfunc : act.func = some fn) {c : Control}
    (hc : c = { checkLine line s.control act rest.length with stateDirty := false })
    (hkeeps : ∀ round ∈ rounds, ∀ request ∈ round.requests, request.KeepsBreakpoints)
    (hloop : s.dispatchLoop line rounds = some s') :
    Passed line c (stopsOf s.sent ++ stopsOf [(c.paused, line)])
      (rounds.flatMap Round.requests) rest fn s' := by
  have hstep := hsound.step
  have hlines := hsound.lines
  rw [hstack] at hstep hlines
  have hbelow := (List.forall_mem_cons.mp hlines).2
  cases rounds with
  | nil =>
      have hcounter : 0 < s.interruptCounter := by
        rw [dispatchLoop, Option.ite_none_right_eq_some] at hloop
        exact hloop.1
      have hpassing : s.Passing line act rest fn :=
        passing_of_interruptCounter hsound hready hforce hstack hfunc hcounter
      have hsame : c = s.control := by
        rw [hc, hpassing.checkLine, ← hpassing.clean]
      have hnone : stopsOf s.sent ++ stopsOf [(s.control.paused, line)] = stopsOf s.sent := by
        rw [hpassing.unpaused]
        exact List.append_nil _
      rw [hsame, hnone]
      exact hpassing.dispatchLoop hkeeps hloop
  | cons round rounds =>
      obtain ⟨hfirst, hrest⟩ := List.forall_mem_cons.mp hkeeps
      rw [dispatchLoop, Option.ite_none_left_eq_some] at hloop
      obtain ⟨⟨m, restart⟩, hint, hgo⟩ := Option.bind_eq_some_iff.mp hloop.2
      have hsynced : s.synced = s := if_neg (by simp [hforce])
      rw [hsynced] at hint
      have hpassing := passing_interrupt hstack hfunc hforce hready hbelow
        (stepAt_checkLine hstep) hfirst hint
      obtain ⟨hpaused, hcontrol, _, hstops, _, _, hrestart⟩ := interrupt_cases hstack hc rfl hint
      rw [← List.append_assoc] at hstops
      refine (hpassing.passed (fun hend hthread => ?_) hgo fun hp =>
        hp.dispatchLoop hrest).prepend hcontrol hstops
      -- Without a request the executor cannot have been stopped here.
      have hnone : round.requests = [] := by
        rw [hend, eq_comm, Bool.not_eq_false', List.isEmpty_iff] at hrestart
        exact hrestart
      rw [hnone] at hpaused hcontrol
      have hnot : ¬ (Checked s.control act rest.length ∧ Hit line s.control act rest.length) := by
        intro hhit
        rw [hc, checkLine, if_pos hhit] at hpaused
        cases hpaused
      have hsame : checkLine line s.control act rest.length = s.control := if_neg hnot
      have hm : m.control = { s.control with stateDirty := false } := by
        rw [hcontrol, hc, hsame]
        rfl
      have hchecked : (checkLine line s.control act rest.length).stepThread = true → _ :=
        stepAt_checkLine hstep
      rw [hsame] at hchecked
      rw [hm] at hthread ⊢
      exact (stepAt_markLine hchecked hthread).congr rfl rfl rfl

/-- An instruction is executed after the same stops and requests by both executors. -/
theorem Kept.dispatch (h : s.Kept) (hbyte : s.onBytecode = true)
    (hkeeps : ∀ round ∈ rounds, ∀ request ∈ round.requests, request.KeepsBreakpoints)
    (hloop : s.dispatchLoop line rounds = some s') :
    (s'.executed line).Kept ∧
      s.plain.dispatch line (rounds.flatMap Round.requests) = some (s'.executed line).plain := by
  obtain ⟨hsound, hready, hforce, hplain⟩ := h.synced
  rw [h.dispatchLoop_synced] at hloop
  rw [← onBytecode_synced] at hbyte
  obtain ⟨act, rest, fn, hstack, hfunc⟩ := onBytecode_iff.mp hbyte
  have hpassed := dispatchLoop_passed hsound hready hforce hstack hfunc rfl hkeeps hloop
  obtain ⟨act', hpassing, hstep⟩ := hpassed.passing
  obtain ⟨hkept, hplain'⟩ := hpassing.executed hstep
  refine ⟨hkept, ?_⟩
  have hstack' : s.synced.plain.callstack =
      ⟨some fn, act.lastLine⟩ :: rest.map ExecActivation.plain := by
    rw [plain, hstack, List.map_cons, ExecActivation.plain, hfunc]
  have hcheck : (if Plain.Hit line s.synced.plain.control fn act.lastLine rest.length then
      s.synced.plain.control.setPaused else s.synced.plain.control) =
        (checkLine line s.synced.control act rest.length).plain := by
    rw [checkLine_eq_of_sound hsound hready hstack hfunc, apply_ite Control.plain]
    rfl
  have hprocessed := Control.plain_processMessages line rest.length
    { checkLine line s.synced.control act rest.length with stateDirty := false }
    (rounds.flatMap Round.requests)
  rw [← hpassed.control] at hprocessed
  rw [← List.length_map ExecActivation.plain] at hcheck hprocessed
  rw [← hplain, Plain.dispatch_eq hstack' hcheck hprocessed hpassing.unpaused, hplain',
    hpassed.stops, List.append_assoc, List.length_map]
  rfl

theorem processMessages_fair {c : Control} {csindex : ℕ} (h : c.Fair)
    (requests : List DukRequest) : (c.processMessages line csindex requests).1.Fair := by
  have htold : c.Told [(c.paused, line)] := fun _ => rfl
  exact (Control.processMessages_fair line csindex h htold requests).1

/-- A `debugger` statement stops where it is. -/
theorem Sound.haltExecution {requests : List DukRequest} (h : s.Sound)
    (hnone : ∀ request ∈ requests, request.StartsNothing)
    (hhalt : s.haltExecution line requests = some m) :
    m.Sound ∧
      (s.plain.control.setPaused.processMessages line (s.plain.callstack.length - 1)
        requests).1.paused = false ∧
      { s.plain with
        control := (s.plain.control.setPaused.processMessages line
          (s.plain.callstack.length - 1) requests).1
        stops := s.plain.stops ++ ([line] ++ stopsOf (s.plain.control.setPaused.processMessages line
          (s.plain.callstack.length - 1) requests).2) } = m.plain := by
  rw [Executor.haltExecution, Option.ite_none_left_eq_some, Bool.not_eq_true] at hhalt
  obtain ⟨hpaused, heq⟩ := hhalt
  obtain rfl := Option.some.inj heq
  have hkeeps : ∀ request ∈ requests, request.KeepsBreakpoints := by
    intro request hrequest
    have := hnone request hrequest
    cases request <;> first | exact absurd this id | trivial
  have hmoved := Control.moved_processMessages line (s.callstack.length - 1) s.control.setPaused
    hkeeps
  have hplain := Control.plain_processMessages line (s.callstack.length - 1) s.control.setPaused
    requests
  have hcontrol : s.plain.control.setPaused = s.control.setPaused.plain := rfl
  rw [plain_callstack_length, hcontrol, hplain]
  refine ⟨⟨processMessages_fair (Control.fair_setPaused _) requests, h.force,
    h.lines.congr hmoved.table, fun hthread => ?_⟩, hpaused, ?_⟩
  · rw [Control.stepThread_processMessages hnone rfl] at hthread
    cases hthread
  · simp only [plain, stopsOf_append, List.append_assoc]
    rfl

def Simulated (s : Executor) (e : ExecEvent) (s' : Executor) : Prop :=
  s'.Kept ∧ s.plain.step e = some s'.plain

theorem Kept.enter (h : s.Kept) (hstep : s.step (.enter fn) = some s') :
    s.Simulated (.enter fn) s' := by
  obtain rfl := Option.some.inj hstep
  obtain ⟨hsound, hplain⟩ := h.1.push fn
  exact ⟨⟨hsound, fun _ => ready_recheck _⟩, congrArg some hplain.symm⟩

theorem Kept.leave (h : s.Kept) (hstep : s.step .leave = some s') : s.Simulated .leave s' := by
  rw [step, Option.ite_none_right_eq_some] at hstep
  obtain ⟨hbyte, heq⟩ := hstep
  obtain rfl := Option.some.inj heq
  obtain ⟨hsound, hplain⟩ := h.1.unwindOne
  refine ⟨hsound.returnFromCall, ?_⟩
  rw [Plain.step, onBytecode_plain, if_pos hbyte, ← hplain]
  rfl

theorem Kept.call (h : s.Kept) (hstep : s.step (.call fn) = some s') :
    s.Simulated (.call fn) s' := by
  rw [step, Option.ite_none_right_eq_some] at hstep
  obtain ⟨hbyte, heq⟩ := hstep
  obtain rfl := Option.some.inj heq
  obtain ⟨hsound, hplain⟩ := h.1.push fn
  refine ⟨⟨hsound, fun _ => ready_recheck _⟩, ?_⟩
  rw [Plain.step, onBytecode_plain, if_pos hbyte, ← hplain]

theorem Kept.tailCall (h : s.Kept) (hstep : s.step (.tailCall fn) = some s') :
    s.Simulated (.tailCall fn) s' := by
  rw [step, Option.ite_none_right_eq_some] at hstep
  obtain ⟨hbyte, heq⟩ := hstep
  obtain rfl := Option.some.inj heq
  obtain ⟨hsound, hplain⟩ := h.1.unwindOne
  obtain ⟨hsound', hplain'⟩ := hsound.push fn
  refine ⟨⟨hsound', fun _ => ready_recheck _⟩, ?_⟩
  rw [Plain.step, onBytecode_plain, if_pos hbyte, ← hplain, ← hplain']

theorem Kept.ret (h : s.Kept) (hstep : s.step .ret = some s') : s.Simulated .ret s' := by
  rw [step, Option.ite_none_right_eq_some, onto, Option.ite_none_right_eq_some] at hstep
  obtain ⟨hbyte, hbyte', heq⟩ := hstep
  obtain rfl := Option.some.inj heq
  obtain ⟨hsound, hplain⟩ := h.1.unwindOne
  refine ⟨hsound.kept_recheck, ?_⟩
  rw [Plain.step, ← hplain, onBytecode_plain, onBytecode_plain, if_pos ⟨hbyte, hbyte'⟩,
    hsound.recheck.2]

theorem Kept.callNative (h : s.Kept) (hstep : s.step .callNative = some s') :
    s.Simulated .callNative s' := by
  obtain rfl := Option.some.inj hstep
  refine ⟨⟨⟨h.1.fair, h.1.force, ?_, fun hthread => (h.1.step hthread).above fun _ => rfl⟩,
    fun _ => ready_of_not_onBytecode rfl⟩, rfl⟩
  refine List.forall_mem_cons.mpr ⟨fun _ hfunc => ?_, h.1.lines⟩
  cases hfunc

theorem Kept.retNative (h : s.Kept) (hstep : s.step .retNative = some s') :
    s.Simulated .retNative s' := by
  rw [step, Option.ite_none_right_eq_some] at hstep
  obtain ⟨hnative, heq⟩ := hstep
  obtain rfl := Option.some.inj heq
  obtain ⟨hsound, hplain⟩ := h.1.unwindOne
  refine ⟨hsound.returnFromCall, ?_⟩
  rw [Plain.step, onNative_plain, if_pos hnative, ← hplain]
  rfl

theorem Kept.throwTo (h : s.Kept) {count : ℕ} (hstep : s.step (.throwTo count) = some s') :
    s.Simulated (.throwTo count) s' := by
  rw [step, Option.ite_none_right_eq_some, onto, Option.ite_none_right_eq_some] at hstep
  obtain ⟨hcount, hbyte, heq⟩ := hstep
  obtain rfl := Option.some.inj heq
  obtain ⟨hsound, hplain⟩ := h.1.unwind count
  refine ⟨hsound.kept_recheck, ?_⟩
  rw [Plain.step, ← hplain, onBytecode_plain, plain_callstack_length, if_pos ⟨hcount, hbyte⟩,
    hsound.recheck.2]

theorem Kept.throwOut (h : s.Kept) {count : ℕ} (hstep : s.step (.throwOut count) = some s') :
    s.Simulated (.throwOut count) s' := by
  rw [step, Option.ite_none_right_eq_some] at hstep
  obtain ⟨hcount, heq⟩ := hstep
  obtain rfl := Option.some.inj heq
  obtain ⟨hsound, hplain⟩ := h.1.unwind count
  refine ⟨hsound.returnFromCall, ?_⟩
  rw [Plain.step, plain_callstack_length, if_pos hcount, ← hplain]
  rfl

/-- Above native functions nothing has to be rechecked. -/
theorem Kept.throwSafe (h : s.Kept) {count : ℕ} (houtside : s.Outside (.throwSafe count))
    (hstep : s.step (.throwSafe count) = some s') : s.Simulated (.throwSafe count) s' := by
  rw [step, Option.ite_none_right_eq_some] at hstep
  obtain ⟨hcount, heq⟩ := hstep
  obtain rfl := Option.some.inj heq
  obtain ⟨hsound, hplain⟩ := h.1.unwind count
  refine ⟨⟨hsound, fun _ => ready_of_not_onBytecode houtside⟩, ?_⟩
  rw [Plain.step, plain_callstack_length, if_pos hcount, ← hplain]

theorem Kept.jump (h : s.Kept) (hstep : s.step .restart = some s') :
    s.Simulated .restart s' := by
  rw [step, onto, Option.ite_none_right_eq_some] at hstep
  obtain ⟨hbyte, heq⟩ := hstep
  obtain rfl := Option.some.inj heq
  refine ⟨h.1.kept_recheck, ?_⟩
  rw [Plain.step, onBytecode_plain, if_pos hbyte, h.1.recheck.2]

theorem Kept.debuggerStatement (h : s.Kept) {requests : List DukRequest}
    (hnone : ∀ request ∈ requests, request.StartsNothing)
    (hstep : s.step (.debuggerStatement line requests) = some s') :
    s.Simulated (.debuggerStatement line requests) s' := by
  rw [step, Option.ite_none_right_eq_some] at hstep
  obtain ⟨hbyte, hmap⟩ := hstep
  obtain ⟨m, hhalt, rfl⟩ := Option.map_eq_some_iff.mp hmap
  obtain ⟨hsound, hplain⟩ := h.1.haltExecution hnone hhalt
  refine ⟨hsound.kept_recheck, ?_⟩
  rw [hsound.recheck.2, Plain.step, onBytecode_plain]
  exact (if_pos ⟨hbyte, hplain.1⟩).trans (congrArg some hplain.2)

/-- Without an activation there is no line to start a step on. -/
theorem Kept.cooperate (h : s.Kept) {requests : List DukRequest}
    (hkeeps : ∀ request ∈ requests, request.KeepsBreakpoints)
    (hstep : s.step (.cooperate requests) = some s') : s.Simulated (.cooperate requests) s' := by
  rw [step, Option.ite_none_right_eq_some] at hstep
  obtain ⟨hidle, heq⟩ := hstep
  obtain rfl := Option.some.inj heq
  have hmoved := Control.moved_processMessages 0 0 s.control hkeeps
  refine ⟨⟨⟨processMessages_fair h.1.fair requests, h.1.force, h.1.lines.congr hmoved.table,
    fun hthread => ?_⟩, fun _ => ready_of_not_onBytecode ?_⟩, ?_⟩
  · rcases hmoved.step hthread with ⟨hold, _⟩ | ⟨hpos, _⟩
    · have hstep := h.1.step hold
      rw [hidle] at hstep
      cases hstep
    · exact absurd hpos (Nat.lt_irrefl 0)
  · rw [onBytecode, hidle]
    rfl
  · have hidle' : s.plain.callstack = [] := by
      rw [plain, hidle]
      rfl
    have hprocessed := Control.plain_processMessages 0 0 s.control requests
    rw [Plain.step, if_pos hidle']
    simp only [plain, stopsOf_append] at hprocessed ⊢
    rw [hprocessed]

theorem Kept.simulation (s : Executor) (e : ExecEvent) (s' : Executor) (h : s.Kept)
    (hregular : s.Regular e) (hstep : s.step e = some s') : s.Simulated e s' := by
  cases e with
  | enter fn => exact h.enter hstep
  | leave => exact h.leave hstep
  | call fn => exact h.call hstep
  | tailCall fn => exact h.tailCall hstep
  | ret => exact h.ret hstep
  | callNative => exact h.callNative hstep
  | retNative => exact h.retNative hstep
  | throwTo count => exact h.throwTo hstep
  | throwOut count => exact h.throwOut hstep
  | throwSafe count => exact h.throwSafe hregular.2 hstep
  | restart => exact h.jump hstep
  | dispatch line rounds =>
      rw [step, Option.ite_none_right_eq_some] at hstep
      obtain ⟨hbyte, hmap⟩ := hstep
      obtain ⟨m, hloop, rfl⟩ := Option.map_eq_some_iff.mp hmap
      exact h.dispatch hbyte hregular.1 hloop
  | debuggerStatement line requests => exact h.debuggerStatement hregular.1 hstep
  | cooperate requests => exact h.cooperate hregular.1 hstep

theorem kept_of_run {table : BreakpointTable} {es : List ExecEvent}
    (hregular : Along step Regular (attached table) es)
    (hrun : run step (attached table) es = some s) :
    s.Kept ∧ run Plain.step (attached table).plain es = some s.plain := by
  have hstart : (attached table).Kept :=
    ⟨⟨fun _ => rfl, fun _ => rfl, fun _ hact => absurd hact List.not_mem_nil, Bool.noConfusion⟩,
      fun _ => ready_of_not_onBytecode rfl⟩
  exact run_simulation Kept.simulation hstart hregular hrun

/-- A script is entered and its first line is stepped over. There it calls a native function,
which makes a protected call of a function that throws, and it is resumed on the second line. -/
def steppedOver : List ExecEvent :=
  [.enter ⟨none, 1, 3, []⟩, .dispatch 1 [⟨false, [.stepOver]⟩, ⟨false, []⟩], .callNative,
    .enter ⟨none, 8, 9, []⟩, .dispatch 8 [⟨false, []⟩], .throwOut 1, .retNative,
    .dispatch 1 [⟨false, []⟩], .dispatch 2 [⟨false, [.resume]⟩, ⟨false, []⟩]]

-- A finalizer that throws on the first line. The step over the line is not ended on the second,
-- where the plain executor stops.
example : ((run step (attached ⟨[], by decide⟩)
    [.enter ⟨none, 1, 3, []⟩, .dispatch 1 [⟨false, [.stepOver]⟩, ⟨false, []⟩],
      .enter ⟨none, 8, 9, []⟩, .dispatch 8 [⟨false, []⟩], .throwSafe 1,
      .dispatch 2 []]).map fun s => stopsOf s.sent) = some [1] := by
  decide

end Executor

end Duktape

end UnifyFramework
