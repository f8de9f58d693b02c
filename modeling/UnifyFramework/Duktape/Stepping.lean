import UnifyFramework.Duktape.Read
import UnifyFramework.Transition.Run

/-!
# Pausing and stepping in the bytecode executor

With a debugger attached the executor has to stop at breakpoints and at the end of a step. It
does not look at every instruction. A counter runs down to the next interrupt; only in checked
mode there is an interrupt before each instruction. Whether an activation is executed in
checked mode is found out by `duk__executor_recheck_debugger`, whenever the executor restarts
in an activation, and with it the breakpoints that lie in the function. A call made from C code
returns into an activation without a restart; it sets the counter to zero and asks for one.
A step is ended by an interrupt on another line, by a recheck in another activation, or by the
unwinding of the activation that was stepped in, all of which set the executor to paused. At
the next interrupt the status is sent and requests are processed until one of them resumes.

An error that ends a protected call sets the counter and asks for a restart like a return. One
that ends a safe call does not, although finalizers are run in safe calls in the middle of an
instruction. If a finalizer throws, the executor goes on in the bytecode below without an
interrupt, also when the unwinding has just paused it.

A run is a sequence of calls, returns, errors and instructions in any order that the
callstack allows, with any requests of the debugger where they are read. There is one Duktape
thread, and the debugger stays attached.
-/

namespace UnifyFramework

namespace Duktape

open Debugger Transition

/-- `DUK_STEP_TYPE_xxx`. -/
inductive StepType
  | none
  | into
  | over
  | out
  deriving DecidableEq, Repr

/-- The fields `dbg_xxx` of the heap that requests change. There is one thread, so
`dbg_step_thread` is that thread or NULL. -/
structure Control where
  paused : Bool
  stateDirty : Bool
  stepType : StepType
  stepThread : Bool
  stepCsindex : ℕ
  stepStartline : ℕ
  table : BreakpointTable
  breakpointsActive : List Breakpoint
  deriving DecidableEq

abbrev Status := Bool × ℕ

namespace Control

def clearStepState (c : Control) : Control :=
  { c with
    stepType := .none
    stepThread := false
    stepCsindex := 0
    stepStartline := 0 }

def setPaused (c : Control) : Control :=
  { c.clearStepState with
    paused := true
    stateDirty := true }

def clearPaused (c : Control) : Control :=
  { c.clearStepState with
    paused := false
    stateDirty := true }

def handleStep (line csindex : ℕ) (stepType : StepType) (c : Control) : Control :=
  if 0 < line then
    { c with
      paused := false
      stepType := stepType
      stepThread := true
      stepCsindex := csindex
      stepStartline := line
      stateDirty := true }
  else c

/-- The handlers of the requests, on the state of the heap. A breakpoint that is added or
removed empties the list of the active ones. -/
def handle (line csindex : ℕ) (c : Control) : DukRequest → Control
  | .pause => c.setPaused
  | .resume => c.clearPaused
  | .stepInto => c.handleStep line csindex .into
  | .stepOver => c.handleStep line csindex .over
  | .stepOut => c.handleStep line csindex .out
  | .addBreak filename bpLine =>
      match dukDebugAddBreakpoint c.table ⟨filename, bpLine⟩ with
      | some (_, table) => { c with table := table, breakpointsActive := [] }
      | none => c
  | .delBreak index =>
      match dukDebugRemoveBreakpoint c.table index.toNat with
      | some table => { c with table := table, breakpointsActive := [] }
      | none => c
  | .getLocals => c

/-- One pass of the loop of `duk_debug_process_messages`, with the status it sends. -/
def processMessage (line csindex : ℕ) (c : Control) (request : DukRequest) :
    Control × List Status :=
  let c' := c.handle line csindex request
  if c'.stateDirty then ({ c' with stateDirty := false }, [(c'.paused, line)]) else (c', [])

/-- The loop of `duk_debug_process_messages` over the requests that are read. -/
def processMessages (line csindex : ℕ) : Control → List DukRequest → Control × List Status
  | c, [] => (c, [])
  | c, request :: requests =>
      let first := c.processMessage line csindex request
      let rest := processMessages line csindex first.1 requests
      (rest.1, first.2 ++ rest.2)

def Stepping (c : Control) (csindex : ℕ) : Prop :=
  (c.stepType = .into ∨ c.stepType = .over) ∧ c.stepThread = true ∧ c.stepCsindex = csindex

instance (c : Control) (csindex : ℕ) : Decidable (c.Stepping csindex) :=
  inferInstanceAs (Decidable (_ ∧ _ ∧ _))

def forceInto (csindex : ℕ) (c : Control) : Control :=
  if c.stepThread = true ∧ c.stepType = .into ∧ c.stepCsindex ≠ csindex then c.setPaused else c

/-- The status is sent if it has changed, if the executor is paused, or if it is time to. -/
def announce (line : ℕ) (poll : Bool) (c : Control) : Control × List Status :=
  if c.stateDirty || c.paused || poll then ({ c with stateDirty := false }, [(c.paused, line)])
  else (c, [])

/-- A step that was started in the activation with the index ends with it. -/
def unwound (csindex : ℕ) (c : Control) : Control :=
  if c.stepThread = true ∧ c.stepCsindex = csindex then c.setPaused else c

end Control

/-- A compiled function, as far as breakpoints look at it: its file name, its lines, and the
lines of its inner functions. -/
structure CompiledFunction where
  fileName : Option Bytes
  startLine : ℕ
  endLine : ℕ
  inner : List (ℕ × ℕ)
  deriving DecidableEq, Repr

/-- The breakpoint lies in the function and not in an inner one. -/
def CompiledFunction.has (fn : CompiledFunction) (b : Breakpoint) : Bool :=
  fn.fileName = some b.filename && (fn.startLine ≤ b.line.toNat && b.line.toNat ≤ fn.endLine) &&
    !fn.inner.any fun range => range.1 ≤ b.line.toNat && b.line.toNat ≤ range.2

/-- `duk_activation`; a native function has no bytecode. `lastLine` is the line of the last
instruction that was executed, and does not exist in the source. -/
structure ExecActivation where
  func : Option CompiledFunction
  prevLine : ℕ
  breakpointActive : Bool
  lastLine : ℕ
  deriving DecidableEq, Repr

def ExecActivation.new (func : Option CompiledFunction) : ExecActivation := ⟨func, 0, false, 0⟩

def intctrDefault : ℕ := 256 * 1024

structure Executor where
  control : Control
  forceRestart : Bool
  interruptCounter : ℕ
  callstack : List ExecActivation
  sent : List Status
  deriving DecidableEq

/-- What is read from the debugger at one interrupt: `poll` says that the rate limit allows to
look for requests. -/
structure Round where
  poll : Bool
  requests : List DukRequest
  deriving DecidableEq, Repr

namespace Executor

/-- `duk_debugger_attach`, with nothing being executed. -/
def attached (table : BreakpointTable) : Executor where
  control := ⟨true, true, .none, false, 0, 0, table, []⟩
  forceRestart := false
  interruptCounter := 0
  callstack := []
  sent := []

/-- The list of active breakpoints is that of the function, and a step into ends. -/
def rechecked (fn : CompiledFunction) (csindex : ℕ) (c : Control) : Control :=
  ({ c with breakpointsActive := c.table.entries.filter fn.has }).forceInto csindex

def Early (c : Control) (csindex : ℕ) : Prop :=
  c.breakpointsActive ≠ [] ∨ c.paused = true ∨ (c.stepType ≠ .out ∧ c.stepCsindex = csindex)

instance (c : Control) (csindex : ℕ) : Decidable (Early c csindex) :=
  inferInstanceAs (Decidable (_ ∨ _ ∨ _))

/-- `duk__executor_recheck_debugger` in the topmost activation. -/
def recheck (s : Executor) : Executor :=
  match s.callstack with
  | ⟨some fn, prevLine, _, lastLine⟩ :: rest =>
      let control := rechecked fn rest.length s.control
      { s with
        control := control
        callstack := ⟨some fn, prevLine, !control.breakpointsActive.isEmpty, lastLine⟩ :: rest
        interruptCounter := if Early control rest.length then 0 else s.interruptCounter }
  | _ => s

def Checked (c : Control) (act : ExecActivation) (csindex : ℕ) : Prop :=
  act.breakpointActive = true ∨ (c.stepThread = true ∧ c.stepCsindex = csindex)

instance (c : Control) (act : ExecActivation) (csindex : ℕ) : Decidable (Checked c act csindex) :=
  inferInstanceAs (Decidable (_ ∨ _))

def Hit (line : ℕ) (c : Control) (act : ExecActivation) (csindex : ℕ) : Prop :=
  act.prevLine ≠ line ∧
    ((c.Stepping csindex ∧ line ≠ c.stepStartline) ∨
      ∃ b ∈ c.breakpointsActive, act.prevLine ≠ b.line.toNat ∧ line = b.line.toNat)

instance (line : ℕ) (c : Control) (act : ExecActivation) (csindex : ℕ) :
    Decidable (Hit line c act csindex) :=
  inferInstanceAs (Decidable (_ ∧ _))

/-- The checks of `duk__interrupt_handle_debugger` for breakpoints and steps. -/
def checkLine (line : ℕ) (c : Control) (act : ExecActivation) (csindex : ℕ) : Control :=
  if Checked c act csindex ∧ Hit line c act csindex then c.setPaused else c

def markLine (line : ℕ) (c : Control) (act : ExecActivation) (csindex : ℕ) : ExecActivation :=
  if Checked c act csindex then { act with prevLine := line } else act

/-- `duk__executor_interrupt` at an instruction of the line: the executor afterwards, and
whether it restarts. Requests are processed if the executor is paused or polls, until it is
not paused. -/
def interrupt (line : ℕ) (round : Round) (s : Executor) : Option (Executor × Bool) :=
  match s.callstack with
  | [] => none
  | act :: rest =>
      let announced := (checkLine line s.control act rest.length).announce line round.poll
      let processed := announced.1.processMessages line rest.length round.requests
      if (announced.1.paused || round.poll || round.requests.isEmpty) && !processed.1.paused then
        some
          ({ s with
            control := processed.1
            callstack := markLine line s.control act rest.length :: rest
            sent := s.sent ++ (announced.2 ++ processed.2)
            interruptCounter :=
              if act.breakpointActive = true ∨ processed.1.Stepping rest.length then 0
              else intctrDefault - 1 },
            !round.requests.isEmpty)
      else none

def synced (s : Executor) : Executor :=
  if s.forceRestart then recheck { s with forceRestart := false } else s

def dispatchLoop (line : ℕ) (s : Executor) : List Round → Option Executor
  | [] =>
      if 0 < s.interruptCounter then some { s with interruptCounter := s.interruptCounter - 1 }
      else none
  | round :: rounds =>
      if 0 < s.interruptCounter then none
      else
        (interrupt line round s.synced).bind fun (s', restart) =>
          if restart then dispatchLoop line s'.recheck rounds
          else if rounds = [] then some s' else none

def executed (line : ℕ) (s : Executor) : Executor :=
  match s.callstack with
  | [] => s
  | act :: rest => { s with callstack := { act with lastLine := line } :: rest }

def push (func : Option CompiledFunction) (s : Executor) : Executor :=
  { s with callstack := .new func :: s.callstack }

/-- `duk_hthread_callstack_unwind` by one activation. -/
def unwindOne (s : Executor) : Executor :=
  match s.callstack with
  | [] => s
  | _ :: rest =>
      { s with
        control := s.control.unwound rest.length
        callstack := rest }

/-- `duk_hthread_callstack_unwind`, by a number of activations. -/
def unwind : ℕ → Executor → Executor
  | 0, s => s
  | n + 1, s => unwind n s.unwindOne

/-- The end of `duk_handle_call_protected` and `duk_handle_call_unprotected`, also after an
error. -/
def returnFromCall (s : Executor) : Executor :=
  { s with
    forceRestart := true
    interruptCounter := 0 }

def onBytecode (s : Executor) : Bool := (s.callstack.head?.bind ExecActivation.func).isSome

def onNative (s : Executor) : Bool := s.callstack.head?.any fun act => act.func.isNone

end Executor

/-- What happens next. `enter` and `leave` are a call of a function made from C code and its
return, `call`, `tailCall` and `ret` stay in the executor; `throwTo` is an error that is
caught in bytecode, `throwOut` one that ends a protected call, and `throwSafe` one that ends a
safe call. `restart` is a jump that leaves a block. -/
inductive ExecEvent
  | enter (fn : CompiledFunction)
  | leave
  | call (fn : CompiledFunction)
  | tailCall (fn : CompiledFunction)
  | ret
  | callNative
  | retNative
  | throwTo (count : ℕ)
  | throwOut (count : ℕ)
  | throwSafe (count : ℕ)
  | restart
  | dispatch (line : ℕ) (rounds : List Round)
  | debuggerStatement (line : ℕ) (requests : List DukRequest)
  | cooperate (requests : List DukRequest)
  deriving DecidableEq, Repr

namespace Executor

def haltExecution (line : ℕ) (requests : List DukRequest) (s : Executor) : Option Executor :=
  let processed :=
    s.control.setPaused.processMessages line (s.callstack.length - 1) requests
  if processed.1.paused then none
  else some { s with control := processed.1, sent := s.sent ++ [(true, line)] ++ processed.2 }

def onto (s : Executor) : Option Executor := if s.onBytecode then some s.recheck else none

def step (s : Executor) : ExecEvent → Option Executor
  | .enter fn => some (s.push (some fn)).recheck
  | .leave => if s.onBytecode then some s.unwindOne.returnFromCall else none
  | .call fn => if s.onBytecode then some (s.push (some fn)).recheck else none
  | .tailCall fn => if s.onBytecode then some (s.unwindOne.push (some fn)).recheck else none
  | .ret => if s.onBytecode then s.unwindOne.onto else none
  | .callNative => some (s.push none)
  | .retNative => if s.onNative then some s.unwindOne.returnFromCall else none
  | .throwTo count => if count < s.callstack.length then (s.unwind count).onto else none
  | .throwOut count =>
      if count ≤ s.callstack.length then some (s.unwind count).returnFromCall else none
  | .throwSafe count => if count ≤ s.callstack.length then some (s.unwind count) else none
  | .restart => s.onto
  | .dispatch line rounds =>
      if s.onBytecode then (s.dispatchLoop line rounds).map (executed line) else none
  | .debuggerStatement line requests =>
      if s.onBytecode then (s.haltExecution line requests).map recheck else none
  | .cooperate requests =>
      if s.callstack = [] then
        let processed := s.control.processMessages 0 0 requests
        some { s with control := processed.1, sent := s.sent ++ processed.2 }
      else none

/-- The condition on an event: an error that ends a safe call does not go back to bytecode. A
finalizer that throws in the middle of an instruction does. -/
def Outside (s : Executor) : ExecEvent → Prop
  | .throwSafe count => (s.unwind count).onBytecode = false
  | _ => True

instance decidableOutside (s : Executor) : (e : ExecEvent) → Decidable (s.Outside e)
  | .throwSafe _ => inferInstanceAs (Decidable (_ = _))
  | .enter _ | .leave | .call _ | .tailCall _ | .ret | .callNative | .retNative | .throwTo _
  | .throwOut _ | .restart | .dispatch _ _ | .debuggerStatement _ _ | .cooperate _ =>
      inferInstanceAs (Decidable True)

end Executor

def DukRequest.Resumes : DukRequest → Prop
  | .resume | .stepInto | .stepOver | .stepOut => True
  | _ => False

namespace Control

@[simp] theorem paused_setPaused (c : Control) : c.setPaused.paused = true := rfl

@[simp] theorem stateDirty_setPaused (c : Control) : c.setPaused.stateDirty = true := rfl

/-- A state that has not been sent is a paused one. -/
def Fair (c : Control) : Prop := c.stateDirty = true → c.paused = true

/-- A state that is not to be sent is the last one that was sent. -/
def Told (c : Control) (sent : List Status) : Prop :=
  c.stateDirty = false → sent.getLast?.map Prod.fst = some c.paused

theorem fair_setPaused (c : Control) : c.setPaused.Fair := fun _ => rfl

theorem told_setPaused (c : Control) (sent : List Status) : Told c.setPaused sent := by
  intro h
  cases h

/-- A request that changes whether the executor is paused asks for a status. -/
theorem handle_quiet {line csindex : ℕ} {c : Control} {request : DukRequest}
    (h : (c.handle line csindex request).stateDirty = false) :
    c.stateDirty = false ∧ (c.handle line csindex request).paused = c.paused := by
  cases request with
  | pause => cases h
  | resume => cases h
  | stepInto | stepOver | stepOut =>
      rw [handle, handleStep] at h ⊢
      split_ifs at h ⊢
      exact ⟨h, rfl⟩
  | addBreak filename bpLine =>
      rw [handle] at h ⊢
      cases hadd : dukDebugAddBreakpoint c.table ⟨filename, bpLine⟩ with
      | none =>
          rw [hadd] at h
          exact ⟨h, rfl⟩
      | some added =>
          rw [hadd] at h
          exact ⟨h, rfl⟩
  | delBreak index =>
      rw [handle] at h ⊢
      cases hdel : dukDebugRemoveBreakpoint c.table index.toNat with
      | none =>
          rw [hdel] at h
          exact ⟨h, rfl⟩
      | some table =>
          rw [hdel] at h
          exact ⟨h, rfl⟩
  | getLocals => exact ⟨h, rfl⟩

theorem processMessage_told (line csindex : ℕ) {c : Control} {sent : List Status}
    (h : Told c sent) (request : DukRequest) :
    (c.processMessage line csindex request).1.stateDirty = false ∧
      Told (c.processMessage line csindex request).1
        (sent ++ (c.processMessage line csindex request).2) := by
  rw [processMessage]
  cases hdirty : (c.handle line csindex request).stateDirty with
  | true =>
      refine ⟨rfl, fun _ => ?_⟩
      simp
  | false =>
      obtain ⟨hclean, hpaused⟩ := handle_quiet hdirty
      refine ⟨hdirty, fun _ => ?_⟩
      simpa [hpaused] using h hclean

theorem processMessages_told (line csindex : ℕ) {c : Control} {sent : List Status}
    (hclean : c.stateDirty = false) (h : Told c sent) (requests : List DukRequest) :
    (c.processMessages line csindex requests).1.stateDirty = false ∧
      Told (c.processMessages line csindex requests).1
        (sent ++ (c.processMessages line csindex requests).2) := by
  induction requests generalizing c sent with
  | nil =>
      rw [processMessages, List.append_nil]
      exact ⟨hclean, h⟩
  | cons request requests ih =>
      obtain ⟨hclean', htold⟩ := processMessage_told line csindex h request
      rw [processMessages, ← List.append_assoc]
      exact ih hclean' htold

theorem processMessages_fair (line csindex : ℕ) {c : Control} {sent : List Status} (hfair : c.Fair)
    (h : Told c sent) (requests : List DukRequest) :
    (c.processMessages line csindex requests).1.Fair ∧
      Told (c.processMessages line csindex requests).1
        (sent ++ (c.processMessages line csindex requests).2) := by
  cases requests with
  | nil =>
      rw [processMessages, List.append_nil]
      exact ⟨hfair, h⟩
  | cons request requests =>
      obtain ⟨hclean, htold⟩ := processMessage_told line csindex h request
      obtain ⟨hclean', htold'⟩ := processMessages_told line csindex hclean htold requests
      rw [processMessages, ← List.append_assoc]
      refine ⟨fun hdirty => ?_, htold'⟩
      rw [hclean'] at hdirty
      cases hdirty

theorem announce_told (line : ℕ) (poll : Bool) {c : Control} {sent : List Status}
    (h : Told c sent) :
    (c.announce line poll).1.stateDirty = false ∧
      Told (c.announce line poll).1 (sent ++ (c.announce line poll).2) := by
  rw [announce]
  cases hsend : c.stateDirty || c.paused || poll with
  | true => exact ⟨rfl, fun _ => by simp⟩
  | false =>
      have hclean : c.stateDirty = false := by
        simp only [Bool.or_eq_false_iff] at hsend
        exact hsend.1.1
      refine ⟨hclean, ?_⟩
      simpa using h

theorem announce_paused (line : ℕ) (poll : Bool) (c : Control) :
    (c.announce line poll).1.paused = c.paused := by
  rw [announce]
  split <;> rfl

theorem handle_paused {line csindex : ℕ} {c : Control} {request : DukRequest}
    (h : c.paused = true) (hnot : ¬ request.Resumes) :
    (c.handle line csindex request).paused = true := by
  cases request with
  | pause => rfl
  | resume | stepInto | stepOver | stepOut => exact absurd trivial hnot
  | addBreak filename bpLine =>
      rw [handle]
      split
      · exact h
      · exact h
  | delBreak index =>
      rw [handle]
      split
      · exact h
      · exact h
  | getLocals => exact h

theorem processMessage_paused {line csindex : ℕ} {c : Control} {request : DukRequest}
    (h : c.paused = true) (hnot : ¬ request.Resumes) :
    (c.processMessage line csindex request).1.paused = true := by
  have hhandle : (c.handle line csindex request).paused = true := handle_paused h hnot
  rw [processMessage]
  split
  · exact hhandle
  · exact hhandle

theorem exists_resumes {line csindex : ℕ} {c : Control} {requests : List DukRequest}
    (h : c.paused = true) (hend : (c.processMessages line csindex requests).1.paused = false) :
    ∃ request ∈ requests, request.Resumes := by
  induction requests generalizing c with
  | nil =>
      rw [processMessages, h] at hend
      cases hend
  | cons request requests ih =>
      by_cases hresumes : request.Resumes
      · exact ⟨request, List.mem_cons_self, hresumes⟩
      · obtain ⟨later, hlater, hresumes'⟩ := ih (processMessage_paused h hresumes) hend
        exact ⟨later, List.mem_cons_of_mem _ hlater, hresumes'⟩

theorem forceInto_told (csindex : ℕ) {c : Control} {sent : List Status} (hfair : c.Fair)
    (htold : Told c sent) : (c.forceInto csindex).Fair ∧ Told (c.forceInto csindex) sent := by
  rw [forceInto]
  split
  · exact ⟨fair_setPaused c, told_setPaused c sent⟩
  · exact ⟨hfair, htold⟩

theorem unwound_told (csindex : ℕ) {c : Control} {sent : List Status} (hfair : c.Fair)
    (htold : Told c sent) : (c.unwound csindex).Fair ∧ Told (c.unwound csindex) sent := by
  rw [unwound]
  split
  · exact ⟨fair_setPaused c, told_setPaused c sent⟩
  · exact ⟨hfair, htold⟩

end Control

namespace Executor

def Reported (s : Executor) : Prop := s.control.Fair ∧ s.control.Told s.sent

def Halting (s : Executor) : Prop :=
  s.onBytecode = true → s.control.paused = true → s.interruptCounter = 0

theorem onBytecode_iff {s : Executor} :
    s.onBytecode = true ↔ ∃ act rest fn, s.callstack = act :: rest ∧ act.func = some fn := by
  cases hstack : s.callstack with
  | nil => simp [onBytecode, hstack]
  | cons act rest => simp [onBytecode, hstack, Option.isSome_iff_exists]

theorem recheck_of_func {s : Executor} {act : ExecActivation} {rest : List ExecActivation}
    {fn : CompiledFunction} (hstack : s.callstack = act :: rest) (hfunc : act.func = some fn) :
    s.recheck =
      { s with
        control := rechecked fn rest.length s.control
        callstack :=
          { act with
            breakpointActive :=
              !(rechecked fn rest.length s.control).breakpointsActive.isEmpty } :: rest
        interruptCounter :=
          if Early (rechecked fn rest.length s.control) rest.length then 0
          else s.interruptCounter } := by
  obtain ⟨func, prevLine, active, lastLine⟩ := act
  obtain rfl : func = some fn := hfunc
  rw [recheck, hstack]

theorem recheck_of_not_onBytecode {s : Executor} (h : s.onBytecode = false) : s.recheck = s := by
  rw [recheck]
  split
  · rename_i hstack
    rw [onBytecode, hstack] at h
    cases h
  · rfl

theorem rechecked_told {c : Control} {sent : List Status} (hfair : c.Fair) (htold : c.Told sent)
    (fn : CompiledFunction) (csindex : ℕ) :
    (rechecked fn csindex c).Fair ∧ (rechecked fn csindex c).Told sent :=
  Control.forceInto_told csindex hfair htold

theorem Reported.recheck {s : Executor} (h : s.Reported) : s.recheck.Reported := by
  cases hbyte : s.onBytecode with
  | false => rwa [recheck_of_not_onBytecode hbyte]
  | true =>
      obtain ⟨act, rest, fn, hstack, hfunc⟩ := onBytecode_iff.mp hbyte
      rw [recheck_of_func hstack hfunc]
      exact rechecked_told h.1 h.2 fn rest.length

theorem halting_recheck (s : Executor) : s.recheck.Halting := by
  cases hbyte : s.onBytecode with
  | false =>
      rw [recheck_of_not_onBytecode hbyte]
      intro h
      rw [hbyte] at h
      cases h
  | true =>
      obtain ⟨act, rest, fn, hstack, hfunc⟩ := onBytecode_iff.mp hbyte
      rw [recheck_of_func hstack hfunc]
      exact fun _ hpaused => if_pos (.inr (.inl hpaused))

theorem Reported.unwindOne {s : Executor} (h : s.Reported) : s.unwindOne.Reported := by
  rw [Executor.unwindOne]
  split
  · exact h
  · exact Control.unwound_told _ h.1 h.2

theorem Reported.unwind {s : Executor} (h : s.Reported) (n : ℕ) : (s.unwind n).Reported := by
  induction n generalizing s with
  | zero => exact h
  | succ n ih => exact ih h.unwindOne

theorem halting_returnFromCall (s : Executor) : s.returnFromCall.Halting := fun _ _ => rfl

theorem checkLine_told (line : ℕ) {c : Control} {sent : List Status} (htold : c.Told sent)
    (act : ExecActivation) (csindex : ℕ) : (checkLine line c act csindex).Told sent := by
  rw [checkLine]
  split
  · exact Control.told_setPaused c sent
  · exact htold

theorem checkLine_paused {line : ℕ} {c : Control} (h : c.paused = true) (act : ExecActivation)
    (csindex : ℕ) : (checkLine line c act csindex).paused = true := by
  rw [checkLine]
  split
  · rfl
  · exact h

/-- After an interrupt the executor is not paused, and the debugger knows. -/
theorem interrupt_reported {s s' : Executor} {line : ℕ} {round : Round} {restart : Bool}
    (h : s.Reported) (hint : s.interrupt line round = some (s', restart)) :
    s'.control.paused = false ∧ s'.control.stateDirty = false ∧ s'.control.Told s'.sent := by
  rw [interrupt] at hint
  split at hint
  · cases hint
  · rename_i act rest hstack
    rw [Option.ite_none_right_eq_some] at hint
    obtain ⟨hcond, heq⟩ := hint
    obtain ⟨rfl, -⟩ := Prod.mk.inj (Option.some.inj heq)
    rw [Bool.and_eq_true, Bool.not_eq_true'] at hcond
    obtain ⟨hclean, htold⟩ := Control.announce_told line round.poll
      (checkLine_told line h.2 act rest.length)
    obtain ⟨hclean', htold'⟩ :=
      Control.processMessages_told line rest.length hclean htold round.requests
    refine ⟨hcond.2, hclean', ?_⟩
    rw [List.append_assoc] at htold'
    exact htold'

theorem onBytecode_recheck (s : Executor) : s.recheck.onBytecode = s.onBytecode := by
  cases hbyte : s.onBytecode with
  | false => rw [recheck_of_not_onBytecode hbyte, hbyte]
  | true =>
      obtain ⟨act, rest, fn, hstack, hfunc⟩ := onBytecode_iff.mp hbyte
      rw [recheck_of_func hstack hfunc]
      exact onBytecode_iff.mpr ⟨_, rest, fn, rfl, hfunc⟩

theorem markLine_func (line : ℕ) (c : Control) (act : ExecActivation) (csindex : ℕ) :
    (markLine line c act csindex).func = act.func := by
  rw [markLine]
  split <;> rfl

theorem onBytecode_interrupt {s s' : Executor} {line : ℕ} {round : Round} {restart : Bool}
    (hint : s.interrupt line round = some (s', restart)) : s'.onBytecode = s.onBytecode := by
  rw [interrupt] at hint
  split at hint
  · cases hint
  · rename_i act rest hstack
    rw [Option.ite_none_right_eq_some] at hint
    obtain ⟨rfl, -⟩ := Prod.mk.inj (Option.some.inj hint.2)
    simp only [onBytecode, hstack, List.head?_cons, Option.bind_some, markLine_func]

theorem Reported.synced {s : Executor} (h : s.Reported) : s.synced.Reported := by
  rw [Executor.synced]
  split
  · exact Reported.recheck h
  · exact h

theorem onBytecode_synced (s : Executor) : s.synced.onBytecode = s.onBytecode := by
  rw [synced]
  split
  · exact onBytecode_recheck _
  · rfl

/-- No instruction is executed by a paused executor, and the debugger has been told that it is
not paused. -/
theorem dispatchLoop_reported {s s' : Executor} {line : ℕ} {rounds : List Round}
    (h : s.Reported) (hhalt : s.Halting) (hbyte : s.onBytecode = true)
    (hloop : s.dispatchLoop line rounds = some s') :
    s'.control.paused = false ∧ s'.control.stateDirty = false ∧ s'.control.Told s'.sent := by
  induction rounds generalizing s with
  | nil =>
      rw [dispatchLoop, Option.ite_none_right_eq_some] at hloop
      obtain ⟨hcounter, heq⟩ := hloop
      obtain rfl := Option.some.inj heq
      have hpaused : s.control.paused = false := by
        rw [Bool.eq_false_iff]
        intro hpaused
        have hzero := hhalt hbyte hpaused
        omega
      have hclean : s.control.stateDirty = false := by
        rw [Bool.eq_false_iff]
        intro hdirty
        rw [h.1 hdirty] at hpaused
        cases hpaused
      exact ⟨hpaused, hclean, h.2⟩
  | cons round rounds ih =>
      rw [dispatchLoop, Option.ite_none_left_eq_some] at hloop
      obtain ⟨⟨m, restart⟩, hint, hrest⟩ := Option.bind_eq_some_iff.mp hloop.2
      have hm := interrupt_reported h.synced hint
      dsimp only at hrest
      split at hrest
      · have hreported : m.Reported := by
          refine ⟨fun hdirty => ?_, hm.2.2⟩
          rw [hm.2.1] at hdirty
          cases hdirty
        refine ih (Reported.recheck hreported) (halting_recheck m) ?_ hrest
        rw [onBytecode_recheck, onBytecode_interrupt hint, onBytecode_synced, hbyte]
      · rw [Option.ite_none_right_eq_some] at hrest
        obtain rfl := Option.some.inj hrest.2
        exact hm

theorem executed_control (line : ℕ) (s : Executor) : (s.executed line).control = s.control := by
  rw [executed]
  split <;> rfl

theorem executed_sent (line : ℕ) (s : Executor) : (s.executed line).sent = s.sent := by
  rw [executed]
  split <;> rfl

theorem Reported.onto {s s' : Executor} (h : s.Reported) (hs' : s.onto = some s') :
    s'.Reported ∧ s'.Halting := by
  rw [Executor.onto, Option.ite_none_right_eq_some] at hs'
  obtain rfl := Option.some.inj hs'.2
  exact ⟨Reported.recheck h, halting_recheck s⟩

/-- The state of a running executor, whatever it executes and is asked for. -/
theorem reported_step (s : Executor) (e : ExecEvent) (s' : Executor)
    (h : s.Reported ∧ s.Halting) (houtside : s.Outside e) (hstep : s.step e = some s') :
    s'.Reported ∧ s'.Halting := by
  obtain ⟨hreported, hhalt⟩ := h
  cases e with
  | enter fn =>
      obtain rfl := Option.some.inj hstep
      exact ⟨Reported.recheck (s := s.push (some fn)) hreported, halting_recheck _⟩
  | leave =>
      rw [step, Option.ite_none_right_eq_some] at hstep
      obtain rfl := Option.some.inj hstep.2
      exact ⟨hreported.unwindOne, halting_returnFromCall _⟩
  | call fn =>
      rw [step, Option.ite_none_right_eq_some] at hstep
      obtain rfl := Option.some.inj hstep.2
      exact ⟨Reported.recheck (s := s.push (some fn)) hreported, halting_recheck _⟩
  | tailCall fn =>
      rw [step, Option.ite_none_right_eq_some] at hstep
      obtain rfl := Option.some.inj hstep.2
      exact ⟨Reported.recheck (s := s.unwindOne.push (some fn)) hreported.unwindOne,
        halting_recheck _⟩
  | ret =>
      rw [step, Option.ite_none_right_eq_some] at hstep
      exact hreported.unwindOne.onto hstep.2
  | callNative =>
      obtain rfl := Option.some.inj hstep
      refine ⟨hreported, fun hbyte => ?_⟩
      cases hbyte
  | retNative =>
      rw [step, Option.ite_none_right_eq_some] at hstep
      obtain rfl := Option.some.inj hstep.2
      exact ⟨hreported.unwindOne, halting_returnFromCall _⟩
  | throwTo count =>
      rw [step, Option.ite_none_right_eq_some] at hstep
      exact (hreported.unwind count).onto hstep.2
  | throwOut count =>
      rw [step, Option.ite_none_right_eq_some] at hstep
      obtain rfl := Option.some.inj hstep.2
      exact ⟨hreported.unwind count, halting_returnFromCall _⟩
  | throwSafe count =>
      rw [step, Option.ite_none_right_eq_some] at hstep
      obtain rfl := Option.some.inj hstep.2
      refine ⟨hreported.unwind count, fun hbyte => ?_⟩
      rw [show (s.unwind count).onBytecode = false from houtside] at hbyte
      cases hbyte
  | restart => exact hreported.onto hstep
  | dispatch line rounds =>
      rw [step, Option.ite_none_right_eq_some] at hstep
      obtain ⟨hbyte, hmap⟩ := hstep
      obtain ⟨m, hloop, rfl⟩ := Option.map_eq_some_iff.mp hmap
      obtain ⟨hpaused, hclean, htold⟩ := dispatchLoop_reported hreported hhalt hbyte hloop
      refine ⟨⟨fun hdirty => ?_, ?_⟩, fun _ hp => ?_⟩
      · rw [executed_control, hclean] at hdirty
        cases hdirty
      · rw [executed_control, executed_sent]
        exact htold
      · rw [executed_control, hpaused] at hp
        cases hp
  | debuggerStatement line requests =>
      rw [step, Option.ite_none_right_eq_some] at hstep
      obtain ⟨m, hhaltm, rfl⟩ := Option.map_eq_some_iff.mp hstep.2
      rw [haltExecution, Option.ite_none_left_eq_some] at hhaltm
      obtain rfl := Option.some.inj hhaltm.2
      exact ⟨Reported.recheck (Control.processMessages_fair _ _ (Control.fair_setPaused _)
        (Control.told_setPaused _ _) requests), halting_recheck _⟩
  | cooperate requests =>
      rw [step, Option.ite_none_right_eq_some] at hstep
      obtain ⟨hidle, heq⟩ := hstep
      obtain rfl := Option.some.inj heq
      refine ⟨Control.processMessages_fair _ _ hreported.1 hreported.2 requests, fun hbyte => ?_⟩
      rw [onBytecode, hidle] at hbyte
      cases hbyte

theorem reported_of_run {table : BreakpointTable} {es : List ExecEvent} {s : Executor}
    (houtside : Along step Outside (attached table) es)
    (hrun : run step (attached table) es = some s) : s.Reported ∧ s.Halting := by
  refine run_invariant_along reported_step ⟨⟨fun _ => rfl, fun h => ?_⟩, fun h => ?_⟩ houtside
    hrun
  · cases h
  · cases h

theorem recheck_sent (s : Executor) : s.recheck.sent = s.sent := by
  rw [recheck]
  split <;> rfl

theorem forceInto_paused {c : Control} (h : c.paused = true) (csindex : ℕ) :
    (c.forceInto csindex).paused = true := by
  rw [Control.forceInto]
  split
  · rfl
  · exact h

theorem recheck_paused {s : Executor} (h : s.control.paused = true) :
    s.recheck.control.paused = true := by
  rw [recheck]
  split
  · rename_i fn prevLine active lastLine rest hstack
    exact forceInto_paused
      (c := { s.control with breakpointsActive := s.control.table.entries.filter fn.has }) h _
  · exact h

theorem synced_sent (s : Executor) : s.synced.sent = s.sent := by
  rw [synced]
  split
  · exact recheck_sent _
  · rfl

theorem synced_paused {s : Executor} (h : s.control.paused = true) :
    s.synced.control.paused = true := by
  rw [synced]
  split
  · exact recheck_paused (s := { s with forceRestart := false }) h
  · exact h

/-- An interrupt sends what it has to, and first of all that the executor is paused. -/
theorem interrupt_sent {s s' : Executor} {line : ℕ} {round : Round} {restart : Bool}
    (hint : s.interrupt line round = some (s', restart)) :
    ∃ new, s'.sent = s.sent ++ new ∧
      (s.control.paused = true → ∃ rest, new = (true, line) :: rest) := by
  rw [interrupt] at hint
  split at hint
  · cases hint
  · rename_i act rest hstack
    rw [Option.ite_none_right_eq_some] at hint
    obtain ⟨rfl, -⟩ := Prod.mk.inj (Option.some.inj hint.2)
    refine ⟨_, rfl, fun hpaused => ?_⟩
    have hcheck : (checkLine line s.control act rest.length).paused = true :=
      checkLine_paused hpaused act rest.length
    rw [Control.announce, hcheck, Bool.or_true, Bool.true_or, if_pos rfl]
    exact ⟨_, rfl⟩

theorem interrupt_resumes {s s' : Executor} {line : ℕ} {round : Round} {restart : Bool}
    (hpaused : s.control.paused = true) (hint : s.interrupt line round = some (s', restart)) :
    ∃ request ∈ round.requests, request.Resumes := by
  rw [interrupt] at hint
  split at hint
  · cases hint
  · rename_i act rest hstack
    rw [Option.ite_none_right_eq_some, Bool.and_eq_true, Bool.not_eq_true'] at hint
    refine Control.exists_resumes ?_ hint.1.2
    rw [Control.announce_paused]
    exact checkLine_paused hpaused act rest.length

theorem dispatchLoop_resumes {s s' : Executor} {line : ℕ} {rounds : List Round}
    (hpaused : s.control.paused = true) (hzero : s.interruptCounter = 0)
    (hloop : s.dispatchLoop line rounds = some s') :
    ∃ round ∈ rounds, ∃ request ∈ round.requests, request.Resumes := by
  cases rounds with
  | nil =>
      rw [dispatchLoop, Option.ite_none_right_eq_some] at hloop
      omega
  | cons round rounds =>
      rw [dispatchLoop, Option.ite_none_left_eq_some] at hloop
      obtain ⟨⟨m, restart⟩, hint, -⟩ := Option.bind_eq_some_iff.mp hloop.2
      exact ⟨round, List.mem_cons_self, interrupt_resumes (synced_paused hpaused) hint⟩

theorem dispatchLoop_sent {s s' : Executor} {line : ℕ} {rounds : List Round}
    (hloop : s.dispatchLoop line rounds = some s') :
    ∃ new, s'.sent = s.sent ++ new ∧
      (s.control.paused = true → s.interruptCounter = 0 → ∃ rest, new = (true, line) :: rest) := by
  induction rounds generalizing s with
  | nil =>
      rw [dispatchLoop, Option.ite_none_right_eq_some] at hloop
      obtain ⟨hcounter, heq⟩ := hloop
      obtain rfl := Option.some.inj heq
      refine ⟨[], (List.append_nil _).symm, fun _ hzero => ?_⟩
      omega
  | cons round rounds ih =>
      rw [dispatchLoop, Option.ite_none_left_eq_some] at hloop
      obtain ⟨⟨m, restart⟩, hint, hrest⟩ := Option.bind_eq_some_iff.mp hloop.2
      obtain ⟨new, hnew, hfirst⟩ := interrupt_sent hint
      rw [synced_sent] at hnew
      have hlater : ∃ later, s'.sent = m.sent ++ later := by
        dsimp only at hrest
        split at hrest
        · obtain ⟨later, hlater, _⟩ := ih hrest
          rw [recheck_sent] at hlater
          exact ⟨later, hlater⟩
        · rw [Option.ite_none_right_eq_some] at hrest
          obtain rfl := Option.some.inj hrest.2
          exact ⟨[], (List.append_nil _).symm⟩
      obtain ⟨later, hlater⟩ := hlater
      refine ⟨new ++ later, by rw [hlater, hnew, List.append_assoc], fun hpaused _ => ?_⟩
      obtain ⟨rest, rfl⟩ := hfirst (synced_paused hpaused)
      exact ⟨rest ++ later, rfl⟩

def entered : Executor := ((attached ⟨[], by decide⟩).push (some ⟨none, 1, 3, []⟩)).recheck

-- A finalizer is entered by a step into and left by a step out, which ends with its error. The
-- next instruction of the script is executed by the paused executor.
example : ((run step (attached ⟨[], by decide⟩)
    [.enter ⟨none, 1, 3, []⟩, .dispatch 1 [⟨false, [.stepInto]⟩, ⟨false, []⟩],
      .enter ⟨none, 8, 9, []⟩, .dispatch 8 [⟨false, [.stepOut]⟩], .throwSafe 1,
      .dispatch 1 []]).map fun s => s.control.paused) = some true := by
  decide

end Executor

end Duktape

end UnifyFramework
