import UnifyFramework.Duktape.Stepping

/-!
# Stepping without the interrupt counter

A debugger could look at every instruction. It would stop where a step into or over comes to
another line of the activation it was started in, and where a line with a breakpoint is
entered from another line of the same activation; a step into would end with the entry of any
function, and every step with the end of its activation. This plain executor keeps nothing but
the state of the heap and the lines last executed. The requests do to it what they do to the
executor of the source; those that leave the breakpoints alone are looked at in detail.
-/

namespace UnifyFramework

namespace Duktape

open Debugger Transition

structure PlainActivation where
  func : Option CompiledFunction
  lastLine : ℕ
  deriving DecidableEq, Repr

def stopsOf (sent : List Status) : List ℕ := (sent.filter Prod.fst).map Prod.snd

structure Plain where
  control : Control
  callstack : List PlainActivation
  stops : List ℕ
  deriving DecidableEq

namespace Plain

def push (fn : CompiledFunction) (p : Plain) : Plain :=
  { p with
    control :=
      if p.control.stepThread = true ∧ p.control.stepType = .into then p.control.setPaused
      else p.control
    callstack := ⟨some fn, 0⟩ :: p.callstack }

def pushNative (p : Plain) : Plain := { p with callstack := ⟨none, 0⟩ :: p.callstack }

def unwindOne (p : Plain) : Plain :=
  match p.callstack with
  | [] => p
  | _ :: rest => { p with control := p.control.unwound rest.length, callstack := rest }

def unwind : ℕ → Plain → Plain
  | 0, p => p
  | n + 1, p => unwind n p.unwindOne

def onBytecode (p : Plain) : Bool := (p.callstack.head?.bind PlainActivation.func).isSome

def onNative (p : Plain) : Bool := p.callstack.head?.any fun act => act.func.isNone

def Hit (line : ℕ) (c : Control) (fn : CompiledFunction) (lastLine csindex : ℕ) : Prop :=
  (c.Stepping csindex ∧ line ≠ c.stepStartline) ∨
    (lastLine ≠ line ∧ ∃ b ∈ c.table.entries, fn.has b = true ∧ b.line.toNat = line)

instance (line : ℕ) (c : Control) (fn : CompiledFunction) (lastLine csindex : ℕ) :
    Decidable (Hit line c fn lastLine csindex) :=
  inferInstanceAs (Decidable (_ ∨ _))

/-- An instruction of the line, with the requests that are read before it. -/
def dispatch (line : ℕ) (requests : List DukRequest) (p : Plain) : Option Plain :=
  match p.callstack with
  | ⟨some fn, lastLine⟩ :: rest =>
      let control :=
        if Hit line p.control fn lastLine rest.length then p.control.setPaused else p.control
      let processed :=
        Control.processMessages line rest.length { control with stateDirty := false } requests
      if processed.1.paused then none
      else
        some
          { control := processed.1
            callstack := ⟨some fn, line⟩ :: rest
            stops := p.stops ++ (stopsOf [(control.paused, line)] ++ stopsOf processed.2) }
  | _ => none

def step (p : Plain) : ExecEvent → Option Plain
  | .enter fn => some (p.push fn)
  | .leave => if p.onBytecode then some p.unwindOne else none
  | .call fn => if p.onBytecode then some (p.push fn) else none
  | .tailCall fn => if p.onBytecode then some (p.unwindOne.push fn) else none
  | .ret => if p.onBytecode ∧ p.unwindOne.onBytecode then some p.unwindOne else none
  | .callNative => some p.pushNative
  | .retNative => if p.onNative then some p.unwindOne else none
  | .throwTo count =>
      if count < p.callstack.length ∧ (p.unwind count).onBytecode then some (p.unwind count)
      else none
  | .throwOut count | .throwSafe count =>
      if count ≤ p.callstack.length then some (p.unwind count) else none
  | .restart => if p.onBytecode then some p else none
  | .dispatch line rounds => p.dispatch line (rounds.flatMap Round.requests)
  | .debuggerStatement line requests =>
      let processed :=
        p.control.setPaused.processMessages line (p.callstack.length - 1) requests
      if p.onBytecode ∧ processed.1.paused = false then
        some { p with control := processed.1, stops := p.stops ++ ([line] ++ stopsOf processed.2) }
      else none
  | .cooperate requests =>
      if p.callstack = [] then
        let processed := p.control.processMessages 0 0 requests
        some { p with control := processed.1, stops := p.stops ++ stopsOf processed.2 }
      else none

end Plain

theorem Plain.dispatch_eq {p : Plain} {line lastLine : ℕ} {fn : CompiledFunction}
    {rest : List PlainActivation} {requests : List DukRequest} {c : Control}
    {processed : Control × List Status} (hstack : p.callstack = ⟨some fn, lastLine⟩ :: rest)
    (hcheck : (if Hit line p.control fn lastLine rest.length then p.control.setPaused
      else p.control) = c)
    (hprocessed :
      Control.processMessages line rest.length { c with stateDirty := false } requests = processed)
    (hpaused : processed.1.paused = false) :
    p.dispatch line requests =
      some ⟨processed.1, ⟨some fn, line⟩ :: rest,
        p.stops ++ (stopsOf [(c.paused, line)] ++ stopsOf processed.2)⟩ := by
  rw [dispatch, hstack]
  simp only [hcheck, hprocessed, hpaused]
  rfl

def ExecActivation.plain (act : ExecActivation) : PlainActivation := ⟨act.func, act.lastLine⟩

def Control.plain (c : Control) : Control := { c with breakpointsActive := [] }

def Executor.plain (s : Executor) : Plain :=
  ⟨s.control.plain, s.callstack.map ExecActivation.plain, stopsOf s.sent⟩

def DukRequest.KeepsBreakpoints : DukRequest → Prop
  | .addBreak _ _ | .delBreak _ => False
  | _ => True

def DukRequest.StartsNothing : DukRequest → Prop
  | .pause | .resume | .getLocals => True
  | _ => False

instance : DecidablePred DukRequest.KeepsBreakpoints
  | .addBreak _ _ | .delBreak _ => inferInstanceAs (Decidable False)
  | .pause | .resume | .stepInto | .stepOver | .stepOut | .getLocals =>
      inferInstanceAs (Decidable True)

instance : DecidablePred DukRequest.StartsNothing
  | .pause | .resume | .getLocals => inferInstanceAs (Decidable True)
  | .addBreak _ _ | .delBreak _ | .stepInto | .stepOver | .stepOut =>
      inferInstanceAs (Decidable False)

/-- The condition on an event: breakpoints are not changed, and steps are not started at a
`debugger` statement. -/
def ExecEvent.Fixed : ExecEvent → Prop
  | .dispatch _ rounds => ∀ round ∈ rounds, ∀ request ∈ round.requests, request.KeepsBreakpoints
  | .debuggerStatement _ requests => ∀ request ∈ requests, request.StartsNothing
  | .cooperate requests => ∀ request ∈ requests, request.KeepsBreakpoints
  | _ => True

instance : DecidablePred ExecEvent.Fixed
  | .dispatch _ _ => inferInstanceAs (Decidable (∀ _ ∈ _, ∀ _ ∈ _, _))
  | .debuggerStatement _ _ => inferInstanceAs (Decidable (∀ _ ∈ _, _))
  | .cooperate _ => inferInstanceAs (Decidable (∀ _ ∈ _, _))
  | .enter _ | .leave | .call _ | .tailCall _ | .ret | .callNative | .retNative | .throwTo _
  | .throwOut _ | .throwSafe _ | .restart => inferInstanceAs (Decidable True)

/-- The condition on an event in its state, with that on errors that end safe calls. -/
def Executor.Regular (s : Executor) (e : ExecEvent) : Prop := e.Fixed ∧ s.Outside e

instance (s : Executor) (e : ExecEvent) : Decidable (s.Regular e) :=
  inferInstanceAs (Decidable (_ ∧ _))

theorem stopsOf_append (a b : List Status) : stopsOf (a ++ b) = stopsOf a ++ stopsOf b := by
  simp [stopsOf]

namespace Control

theorem plain_handle (line csindex : ℕ) (c : Control) (request : DukRequest) :
    c.plain.handle line csindex request = (c.handle line csindex request).plain := by
  cases request with
  | pause | resume | getLocals => rfl
  | stepInto | stepOver | stepOut =>
      simp only [handle, handleStep]
      split <;> rfl
  | addBreak filename bpLine =>
      simp only [handle, plain]
      split <;> rfl
  | delBreak index =>
      simp only [handle, plain]
      split <;> rfl

theorem plain_processMessage (line csindex : ℕ) (c : Control) (request : DukRequest) :
    c.plain.processMessage line csindex request =
      ((c.processMessage line csindex request).1.plain,
        (c.processMessage line csindex request).2) := by
  have hdirty : (c.handle line csindex request).plain.stateDirty =
      (c.handle line csindex request).stateDirty := rfl
  rw [processMessage, processMessage, plain_handle, hdirty]
  split <;> rfl

theorem plain_processMessages (line csindex : ℕ) (c : Control) (requests : List DukRequest) :
    c.plain.processMessages line csindex requests =
      ((c.processMessages line csindex requests).1.plain,
        (c.processMessages line csindex requests).2) := by
  induction requests generalizing c with
  | nil => rfl
  | cons request requests ih =>
      rw [processMessages, plain_processMessage, ih]
      rfl

theorem processMessages_append (line csindex : ℕ) (c : Control) (a b : List DukRequest) :
    c.processMessages line csindex (a ++ b) =
      (((c.processMessages line csindex a).1.processMessages line csindex b).1,
        (c.processMessages line csindex a).2 ++
          ((c.processMessages line csindex a).1.processMessages line csindex b).2) := by
  induction a generalizing c with
  | nil => rfl
  | cons request a ih =>
      rw [List.cons_append, processMessages, ih, processMessages, List.append_assoc]

/-- What requests that keep the breakpoints do: a step that is under way afterwards is the one
from before, or it has been started here. -/
structure Moved (line csindex : ℕ) (c c' : Control) : Prop where
  table : c'.table = c.table
  active : c'.breakpointsActive = c.breakpointsActive
  step : c'.stepThread = true →
    (c.stepThread = true ∧ c'.stepType = c.stepType ∧ c'.stepCsindex = c.stepCsindex ∧
      c'.stepStartline = c.stepStartline) ∨
    (0 < line ∧ c'.stepCsindex = csindex ∧ c'.stepStartline = line)

theorem Moved.refl (line csindex : ℕ) (c : Control) : Moved line csindex c c :=
  ⟨rfl, rfl, fun h => .inl ⟨h, rfl, rfl, rfl⟩⟩

theorem Moved.trans {line csindex : ℕ} {c c' c'' : Control} (h : Moved line csindex c c')
    (h' : Moved line csindex c' c'') : Moved line csindex c c'' := by
  refine ⟨h'.table.trans h.table, h'.active.trans h.active, fun hthread => ?_⟩
  rcases h'.step hthread with ⟨hthread', htype, hindex, hline⟩ | hnew
  · rcases h.step hthread' with ⟨hold, htype', hindex', hline'⟩ | ⟨hpos, hindex', hline'⟩
    · exact .inl ⟨hold, htype.trans htype', hindex.trans hindex', hline.trans hline'⟩
    · exact .inr ⟨hpos, hindex.trans hindex', hline.trans hline'⟩
  · exact .inr hnew

theorem moved_handle (line csindex : ℕ) (c : Control) {request : DukRequest}
    (h : request.KeepsBreakpoints) : Moved line csindex c (c.handle line csindex request) := by
  cases request with
  | pause | resume => exact ⟨rfl, rfl, fun h => by cases h⟩
  | stepInto | stepOver | stepOut =>
      rw [handle, handleStep]
      split
      · rename_i hpos
        exact ⟨rfl, rfl, fun _ => .inr ⟨hpos, rfl, rfl⟩⟩
      · exact Moved.refl line csindex c
  | addBreak filename bpLine => exact absurd h id
  | delBreak index => exact absurd h id
  | getLocals => exact Moved.refl line csindex c

theorem moved_processMessage (line csindex : ℕ) (c : Control) {request : DukRequest}
    (h : request.KeepsBreakpoints) :
    Moved line csindex c (c.processMessage line csindex request).1 := by
  have hmoved := moved_handle line csindex c h
  rw [processMessage]
  split
  · exact ⟨hmoved.table, hmoved.active, hmoved.step⟩
  · exact hmoved

theorem moved_processMessages (line csindex : ℕ) (c : Control) {requests : List DukRequest}
    (h : ∀ request ∈ requests, request.KeepsBreakpoints) :
    Moved line csindex c (c.processMessages line csindex requests).1 := by
  induction requests generalizing c with
  | nil => exact Moved.refl line csindex c
  | cons request requests ih =>
      obtain ⟨hfirst, hrest⟩ := List.forall_mem_cons.mp h
      exact (moved_processMessage line csindex c hfirst).trans (ih _ hrest)

/-- Requests that start nothing leave no step under way that was not. -/
theorem stepThread_processMessages {line csindex : ℕ} {c : Control} {requests : List DukRequest}
    (h : ∀ request ∈ requests, request.StartsNothing) (hthread : c.stepThread = false) :
    (c.processMessages line csindex requests).1.stepThread = false := by
  induction requests generalizing c with
  | nil => exact hthread
  | cons request requests ih =>
      obtain ⟨hfirst, hrest⟩ := List.forall_mem_cons.mp h
      refine ih hrest ?_
      have hhandle : (c.handle line csindex request).stepThread = false := by
        cases request with
        | pause | resume => rfl
        | getLocals => exact hthread
        | _ => exact absurd hfirst id
      rw [processMessage]
      split <;> exact hhandle

def inside (c : Control) (fn : CompiledFunction) : List Breakpoint := c.table.entries.filter fn.has

end Control

end Duktape

end UnifyFramework
