import UnifyFramework.Duktape.PlainStepping

/-!
# What the executor keeps up

The counter, the flags, the lists of breakpoints and the lines that the executor remembers
stand for things the plain executor reads off the breakpoints and the callstack. The relation
between the two is an invariant of the executor. It holds of the activations below the topmost
one as well, so that a return, a tail call or an error needs nothing but a recheck.
-/

namespace UnifyFramework

namespace Duktape

open Debugger Transition

/-- The activation of the step is on the callstack. It executes bytecode, the line it was
started on is the one that is remembered, and for a step into there are only native functions
above it. -/
inductive StepAt (c : Control) : List ExecActivation → Prop
  | here {act : ExecActivation} {rest : List ExecActivation}
      (hindex : c.stepCsindex = rest.length) (hfunc : act.func.isSome = true)
      (hline : c.stepType = .into ∨ c.stepType = .over → act.prevLine = c.stepStartline) :
      StepAt c (act :: rest)
  | above {act : ExecActivation} {rest : List ExecActivation}
      (hnative : c.stepType = .into → act.func = none) (hbelow : StepAt c rest) :
      StepAt c (act :: rest)

theorem StepAt.lt {c : Control} {callstack : List ExecActivation} (h : StepAt c callstack) :
    c.stepCsindex < callstack.length := by
  induction h with
  | here hindex => simp [hindex]
  | above _ _ ih => exact Nat.lt_succ_of_lt ih

theorem StepAt.congr {c c' : Control} {callstack : List ExecActivation} (h : StepAt c callstack)
    (htype : c'.stepType = c.stepType) (hindex : c'.stepCsindex = c.stepCsindex)
    (hline : c'.stepStartline = c.stepStartline) : StepAt c' callstack := by
  induction h with
  | here hi hf hl => exact .here (hindex.trans hi) hf (by rwa [htype, hline])
  | above hn _ ih => exact .above (by rwa [htype]) ih

theorem StepAt.of_top {c : Control} {act act' : ExecActivation} {rest : List ExecActivation}
    (h : StepAt c (act :: rest)) (hfunc : act'.func = act.func)
    (hline : act'.prevLine = act.prevLine) : StepAt c (act' :: rest) := by
  cases h with
  | here hi hf hl => exact .here hi (by rwa [hfunc]) (by rwa [hline])
  | above hn hb => exact .above (by rwa [hfunc]) hb

def LinesKnown (c : Control) (callstack : List ExecActivation) : Prop :=
  ∀ act ∈ callstack, ∀ fn, act.func = some fn → c.inside fn ≠ [] → act.prevLine = act.lastLine

theorem LinesKnown.congr {c c' : Control} {callstack : List ExecActivation}
    (h : LinesKnown c callstack) (htable : c'.table = c.table) : LinesKnown c' callstack := by
  intro act hact fn hfunc hinside
  rw [Control.inside, htable] at hinside
  exact h act hact fn hfunc hinside

namespace Executor

structure Sound (s : Executor) : Prop where
  fair : s.control.Fair
  force : s.forceRestart = true → s.interruptCounter = 0
  lines : LinesKnown s.control s.callstack
  step : s.control.stepThread = true → StepAt s.control s.callstack

/-- The flag and the list of breakpoints are those of the topmost activation, and there is an
interrupt where one is needed. -/
def Ready (s : Executor) : Prop :=
  ∀ act rest fn, s.callstack = act :: rest → act.func = some fn →
    act.breakpointActive = !s.control.breakpointsActive.isEmpty ∧
      s.control.breakpointsActive = s.control.inside fn ∧
      (s.control.breakpointsActive ≠ [] ∨ s.control.paused = true ∨
        s.control.Stepping rest.length → s.interruptCounter = 0)

def Kept (s : Executor) : Prop := s.Sound ∧ (s.forceRestart = false → s.Ready)

theorem ready_of_not_onBytecode {s : Executor} (h : s.onBytecode = false) : s.Ready := by
  intro act rest fn hstack hfunc
  rw [onBytecode_iff.mpr ⟨act, rest, fn, hstack, hfunc⟩] at h
  cases h

theorem rechecked_table (fn : CompiledFunction) (csindex : ℕ) (c : Control) :
    (rechecked fn csindex c).table = c.table := by
  rw [rechecked, Control.forceInto]
  split <;> rfl

theorem rechecked_breakpointsActive (fn : CompiledFunction) (csindex : ℕ) (c : Control) :
    (rechecked fn csindex c).breakpointsActive = c.inside fn := by
  rw [rechecked, Control.forceInto]
  split <;> rfl

theorem early_of_stepping {c : Control} {csindex : ℕ} (h : c.Stepping csindex) :
    Early c csindex := by
  obtain ⟨htype, _, hindex⟩ := h
  refine .inr (.inr ⟨?_, hindex⟩)
  rcases htype with htype | htype <;> simp [htype]

theorem ready_recheck (s : Executor) : s.recheck.Ready := by
  cases hbyte : s.onBytecode with
  | false =>
      rw [recheck_of_not_onBytecode hbyte]
      exact ready_of_not_onBytecode hbyte
  | true =>
      obtain ⟨act, rest, fn, hstack, hfunc⟩ := onBytecode_iff.mp hbyte
      rw [recheck_of_func hstack hfunc]
      intro act' rest' fn' hstack' hfunc'
      obtain ⟨rfl, rfl⟩ := List.cons.inj hstack'
      obtain rfl := Option.some.inj (hfunc.symm.trans hfunc')
      refine ⟨rfl, ?_, fun h => if_pos ?_⟩
      · rw [rechecked_breakpointsActive, Control.inside, Control.inside, rechecked_table]
      · rcases h with hactive | hpaused | hstepping
        · exact .inl hactive
        · exact .inr (.inl hpaused)
        · exact early_of_stepping hstepping

/-- A recheck in the activation of a step, or above it, does not end the step. -/
theorem rechecked_of_stepAt {c : Control} {act : ExecActivation} {rest : List ExecActivation}
    {fn : CompiledFunction} (hfunc : act.func = some fn)
    (hstep : c.stepThread = true → StepAt c (act :: rest)) :
    rechecked fn rest.length c = { c with breakpointsActive := c.inside fn } := by
  refine if_neg ?_
  rintro ⟨hthread, htype, hindex⟩
  cases hstep hthread with
  | here hi => exact hindex hi
  | above hnative =>
      have := hnative htype
      rw [hfunc] at this
      cases this

theorem recheck_control_of_func {s : Executor} {act : ExecActivation}
    {rest : List ExecActivation} {fn : CompiledFunction} (hstack : s.callstack = act :: rest)
    (hfunc : act.func = some fn) :
    s.recheck.control = rechecked fn rest.length s.control := by
  rw [recheck_of_func hstack hfunc]

theorem recheck_table (s : Executor) : s.recheck.control.table = s.control.table := by
  rw [recheck]
  split
  · exact rechecked_table _ _ _
  · rfl

theorem recheck_forceRestart (s : Executor) : s.recheck.forceRestart = s.forceRestart := by
  rw [recheck]
  split <;> rfl

theorem recheck_interruptCounter {s : Executor} (h : s.interruptCounter = 0) :
    s.recheck.interruptCounter = 0 := by
  rw [recheck]
  split
  · rw [h]
    exact ite_self 0
  · exact h

theorem recheck_plain (s : Executor) :
    s.recheck.plain = { s.plain with control := s.recheck.control.plain } := by
  rw [recheck]
  split
  · rename_i hstack
    simp only [plain, hstack]
    rfl
  · rfl

theorem linesKnown_recheck {s : Executor} {c : Control} (h : LinesKnown c s.callstack) :
    LinesKnown c s.recheck.callstack := by
  rw [recheck]
  split
  · rename_i hstack
    rw [hstack] at h
    exact List.forall_mem_cons.mpr (List.forall_mem_cons.mp h)
  · exact h

theorem stepAt_recheck {s : Executor} {c : Control} (h : StepAt c s.callstack) :
    StepAt c s.recheck.callstack := by
  rw [recheck]
  split
  · rename_i hstack
    rw [hstack] at h
    exact h.of_top rfl rfl
  · exact h

/-- A recheck leaves everything as it should be, apart from what it does with a step. -/
theorem sound_recheck {s : Executor} (hfair : s.recheck.control.Fair)
    (hforce : s.forceRestart = true → s.interruptCounter = 0)
    (hlines : LinesKnown s.control s.callstack)
    (hstep : s.recheck.control.stepThread = true → StepAt s.recheck.control s.callstack) :
    s.recheck.Sound where
  fair := hfair
  force h := recheck_interruptCounter (hforce (by rwa [recheck_forceRestart] at h))
  lines := (linesKnown_recheck hlines).congr (recheck_table s)
  step h := stepAt_recheck (hstep h)

theorem Sound.recheck_control {s : Executor} (h : s.Sound) :
    s.recheck.control.plain = s.control.plain ∧ s.recheck.control.Fair := by
  cases hbyte : s.onBytecode with
  | false =>
      rw [recheck_of_not_onBytecode hbyte]
      exact ⟨rfl, h.fair⟩
  | true =>
      obtain ⟨act, rest, fn, hstack, hfunc⟩ := onBytecode_iff.mp hbyte
      have hstep := h.step
      rw [hstack] at hstep
      rw [recheck_control_of_func hstack hfunc, rechecked_of_stepAt hfunc hstep]
      exact ⟨rfl, h.fair⟩

/-- The fields of a step do not depend on the list of breakpoints. -/
theorem step_of_plain {c c' : Control} (h : c.plain = c'.plain) :
    c.stepThread = c'.stepThread ∧ c.stepType = c'.stepType ∧ c.stepCsindex = c'.stepCsindex ∧
      c.stepStartline = c'.stepStartline := by
  simp only [Control.plain, Control.mk.injEq] at h
  exact ⟨h.2.2.2.1, h.2.2.1, h.2.2.2.2.1, h.2.2.2.2.2.1⟩

theorem Sound.recheck {s : Executor} (h : s.Sound) :
    s.recheck.Sound ∧ s.recheck.plain = s.plain := by
  obtain ⟨hcontrol, hfair⟩ := h.recheck_control
  refine ⟨sound_recheck hfair h.force h.lines fun hthread => ?_, ?_⟩
  · obtain ⟨hsame, htype, hindex, hline⟩ := step_of_plain hcontrol
    exact (h.step (hsame.symm.trans hthread)).congr htype hindex hline
  · rw [recheck_plain, hcontrol]
    rfl

theorem Sound.push {s : Executor} (h : s.Sound) (fn : CompiledFunction) :
    (s.push (some fn)).recheck.Sound ∧ (s.push (some fn)).recheck.plain = s.plain.push fn := by
  have hcontrol : (s.push (some fn)).recheck.control =
      rechecked fn s.callstack.length s.control :=
    recheck_control_of_func (s := s.push (some fn)) rfl rfl
  have hlines : LinesKnown s.control (s.push (some fn)).callstack :=
    List.forall_mem_cons.mpr ⟨fun _ _ _ => rfl, h.lines⟩
  rw [recheck_plain]
  by_cases hinto : s.control.stepThread = true ∧ s.control.stepType = .into
  · -- The step into ends here.
    have hrechecked : rechecked fn s.callstack.length s.control =
        ({ s.control with breakpointsActive := s.control.inside fn }).setPaused :=
      if_pos ⟨hinto.1, hinto.2, (h.step hinto.1).lt.ne⟩
    rw [hrechecked] at hcontrol
    refine ⟨sound_recheck ?_ h.force hlines ?_, ?_⟩
    · rw [hcontrol]
      exact Control.fair_setPaused _
    · rw [hcontrol]
      intro hthread
      cases hthread
    · have hplain : s.plain.push fn =
          ⟨s.control.plain.setPaused, ⟨some fn, 0⟩ :: s.plain.callstack, s.plain.stops⟩ :=
        congrArg (fun c => Plain.mk c (⟨some fn, 0⟩ :: s.plain.callstack) s.plain.stops)
          (if_pos hinto)
      rw [hplain, hcontrol]
      rfl
  · have hrechecked : rechecked fn s.callstack.length s.control =
        { s.control with breakpointsActive := s.control.inside fn } :=
      if_neg fun hforced => hinto ⟨hforced.1, hforced.2.1⟩
    rw [hrechecked] at hcontrol
    refine ⟨sound_recheck ?_ h.force hlines ?_, ?_⟩
    · rw [hcontrol]
      exact h.fair
    · rw [hcontrol]
      intro hthread
      refine .above (fun htype => absurd ⟨hthread, htype⟩ hinto) ?_
      exact (h.step hthread).congr rfl rfl rfl
    · have hplain : s.plain.push fn =
          ⟨s.control.plain, ⟨some fn, 0⟩ :: s.plain.callstack, s.plain.stops⟩ :=
        congrArg (fun c => Plain.mk c (⟨some fn, 0⟩ :: s.plain.callstack) s.plain.stops)
          (if_neg hinto)
      rw [hplain, hcontrol]
      rfl

theorem Sound.unwindOne {s : Executor} (h : s.Sound) :
    s.unwindOne.Sound ∧ s.unwindOne.plain = s.plain.unwindOne := by
  cases hstack : s.callstack with
  | nil =>
      have hsame : s.unwindOne = s := by rw [Executor.unwindOne, hstack]
      rw [hsame]
      refine ⟨h, ?_⟩
      rw [Plain.unwindOne, plain, hstack]
      rfl
  | cons act rest =>
      have hsame : s.unwindOne =
          { s with control := s.control.unwound rest.length, callstack := rest } := by
        rw [Executor.unwindOne, hstack]
      have hplain : s.plain.unwindOne =
          { s.plain with
            control := s.control.plain.unwound rest.length
            callstack := rest.map ExecActivation.plain } := by
        rw [Plain.unwindOne, plain, hstack]
        simp only [List.map_cons, List.length_map]
      have hlines : LinesKnown s.control rest := by
        have := h.lines
        rw [hstack] at this
        exact (List.forall_mem_cons.mp this).2
      rw [hsame, hplain]
      by_cases hends : s.control.stepThread = true ∧ s.control.stepCsindex = rest.length
      · have hunwound : s.control.unwound rest.length = s.control.setPaused := if_pos hends
        have hunwound' : s.control.plain.unwound rest.length = s.control.plain.setPaused :=
          if_pos hends
        rw [hunwound, hunwound']
        refine ⟨⟨Control.fair_setPaused _, h.force, hlines.congr rfl, fun hthread => ?_⟩, rfl⟩
        cases hthread
      · have hunwound : s.control.unwound rest.length = s.control := if_neg hends
        have hunwound' : s.control.plain.unwound rest.length = s.control.plain := if_neg hends
        rw [hunwound, hunwound']
        refine ⟨⟨h.fair, h.force, hlines, fun hthread => ?_⟩, rfl⟩
        have hstep := h.step hthread
        rw [hstack] at hstep
        cases hstep with
        | here hindex => exact absurd ⟨hthread, hindex⟩ hends
        | above _ hbelow => exact hbelow

theorem Sound.unwind {s : Executor} (h : s.Sound) (n : ℕ) :
    (s.unwind n).Sound ∧ (s.unwind n).plain = s.plain.unwind n := by
  induction n generalizing s with
  | zero => exact ⟨h, rfl⟩
  | succ n ih =>
      obtain ⟨hsound, hplain⟩ := h.unwindOne
      obtain ⟨hsound', hplain'⟩ := ih hsound
      refine ⟨hsound', hplain'.trans ?_⟩
      rw [hplain]
      rfl

theorem Sound.returnFromCall {s : Executor} (h : s.Sound) : s.returnFromCall.Kept :=
  ⟨⟨h.fair, fun _ => rfl, h.lines, h.step⟩, fun hforce => by cases hforce⟩

theorem Sound.kept_recheck {s : Executor} (h : s.Sound) : s.recheck.Kept :=
  ⟨h.recheck.1, fun _ => ready_recheck s⟩

theorem onBytecode_plain (s : Executor) : s.plain.onBytecode = s.onBytecode := by
  rw [Plain.onBytecode, onBytecode, plain]
  cases s.callstack <;> rfl

theorem plain_callstack_length (s : Executor) : s.plain.callstack.length = s.callstack.length :=
  List.length_map _

theorem onNative_plain (s : Executor) : s.plain.onNative = s.onNative := by
  rw [Plain.onNative, onNative, plain]
  cases s.callstack <;> rfl

end Executor

end Duktape

end UnifyFramework
