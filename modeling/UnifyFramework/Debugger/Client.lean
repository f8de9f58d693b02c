import Mathlib.Tactic.Common
import UnifyFramework.Debugger.Request

/-!
# The debugger object

`DukDebugger` keeps the breakpoints it believes Duktape to have in `breakpointMap`,
the AddBreakpoint calls whose reply it waits for in `breakpointPendingList`, and the
bytes for Duktape in `outputBuffer`. Each of these, and the recognizer queue, has a
mutex of its own, and a request method takes them one after the other. A method is
therefore given here twice: as a whole, and as the sequence of its sections, between
which other threads can run.
-/

namespace UnifyFramework

namespace Debugger

/-- The data members of `DukDebugger`. -/
structure DukDebugger where
  grammarReceiver : GrammarReceiver
  breakpointMap : Std.ExtTreeMap Int Place
  breakpointPendingList : List Place
  outputBuffer : Bytes
  firstPause : Bool

namespace DukDebugger

def init : DukDebugger := ⟨⟨[], [], []⟩, ∅, [], [], false⟩

/-- The loop over `breakpointMap` in `AddBreakpoint` and `RemoveBreakpoint`: the first
entry, in the order of the identifiers, with the file and the line. -/
def findBreakpoint (d : DukDebugger) (place : Place) : Option Int :=
  (d.breakpointMap.toList.find? fun entry => entry.2 = place).map Prod.fst

/-- `AddBreakpoint` under `breakpointPendingMutex`; `none` if the breakpoint exists. -/
def pendBreakpoint (d : DukDebugger) (place : Place) : Option DukDebugger :=
  if (d.findBreakpoint place).isSome then none
  else some { d with breakpointPendingList := d.breakpointPendingList ++ [place] }

/-- `RemoveBreakpoint` under `breakpointPendingMutex`: the identifier, or -1. -/
def takeBreakpoint (d : DukDebugger) (place : Place) : Int × DukDebugger :=
  match d.findBreakpoint place with
  | none => (-1, d)
  | some id => (id, { d with breakpointMap := d.breakpointMap.erase id })

/-- A `Create*Request` function under `recognizerQueueMutex`. -/
def pushRecognizer (d : DukDebugger) (k : ReplyRecognizer) : DukDebugger :=
  { d with
    grammarReceiver :=
      { d.grammarReceiver with recognizerQueue := d.grammarReceiver.recognizerQueue ++ [k] } }

/-- `RefillDataToSend`, under `outputBufferMutex`. -/
def refillDataToSend (d : DukDebugger) (newData : Bytes) : DukDebugger :=
  if newData.length = 0 then d else { d with outputBuffer := d.outputBuffer ++ newData }

/-- `innerSendData`, under `outputBufferMutex`. -/
def innerSendData (d : DukDebugger) (length : ℕ) : Bytes × DukDebugger :=
  if length < d.outputBuffer.length then
    (d.outputBuffer.take length, { d with outputBuffer := d.outputBuffer.drop length })
  else (d.outputBuffer, { d with outputBuffer := [] })

def onAddBreakpoint (d : DukDebugger) (replyInt : ReplyInt) : DukDebugger :=
  match d.breakpointPendingList with
  | [] => d
  | place :: rest =>
      { d with
        breakpointMap := d.breakpointMap.insert replyInt.value place
        breakpointPendingList := rest }

/-- The receivers the constructor installs. `onRemoveBreakpoint` does nothing, and the
others only call functions of the user interface, if they are set. -/
def call (d : DukDebugger) : Callback → DukDebugger
  | .versionIdentificationReceiver _ => d
  | .statusNotificationReceiver _ => { d with firstPause := true }
  | .exceptionNotificationReceiver _ => d
  | .replyAddBreakpointReceiver replyInt => d.onAddBreakpoint replyInt
  | .replyRemoveBreakpointReceiver _ => d
  | .replyNameValueArrayReceiver _ => d

/-- `duk_trans_dvalue_write`. The receivers are called inside `put`, but they leave the
receiver alone and `put` reads nothing else. -/
def dukTransDvalueWrite (sign : CharSign) (d : DukDebugger) (data : Bytes) : DukDebugger :=
  (d.grammarReceiver.put sign data).1.foldl call
    { d with grammarReceiver := (d.grammarReceiver.put sign data).2 }

/-- `RefillDataToSend(grammarReceiver.Create*Request())`. -/
def send (d : DukDebugger) (request : Request) : DukDebugger :=
  (d.pushRecognizer request.recognizer).refillDataToSend request.frame

def pause (d : DukDebugger) : DukDebugger := d.send createPauseRequest

def resume (d : DukDebugger) : DukDebugger := d.send createResumeRequest

def stepInto (d : DukDebugger) : DukDebugger := d.send createStepIntoRequest

def stepOver (d : DukDebugger) : DukDebugger := d.send createStepOverRequest

def stepOut (d : DukDebugger) : DukDebugger := d.send createStepOutRequest

def getLocals (d : DukDebugger) : DukDebugger := d.send createGetLocalsRequest

def addBreakpoint (d : DukDebugger) (filename : Bytes) (line : Int) : DukDebugger :=
  match d.pendBreakpoint (filename, line) with
  | none => d
  | some d' => d'.send (createAddBreakpointRequest filename line)

def removeBreakpoint (d : DukDebugger) (filename : Bytes) (line : Int) : DukDebugger :=
  let (id, d') := d.takeBreakpoint (filename, line)
  if id ≠ -1 then d'.send (createRemoveBreakpointRequest id) else d'

end DukDebugger

/-- The request methods of `DukDebugger`. -/
inductive Method
  | pause
  | resume
  | stepInto
  | stepOver
  | stepOut
  | getLocals
  | addBreakpoint (filename : Bytes) (line : Int)
  | removeBreakpoint (filename : Bytes) (line : Int)
  deriving DecidableEq, Repr

/-- Where a thread is in a request method: outside, behind the first section of
`AddBreakpoint` or `RemoveBreakpoint`, or between a `Create*Request` function and
`RefillDataToSend`. -/
inductive CallState
  | idle
  | pended (place : Place)
  | taken (id : Int)
  | created (request : Request)
  deriving DecidableEq

namespace DukDebugger

/-- A `Create*Request` function as a section of a method. -/
def create (d : DukDebugger) (request : Request) : DukDebugger × CallState :=
  (d.pushRecognizer request.recognizer, .created request)

def startCall (d : DukDebugger) : Method → DukDebugger × CallState
  | .pause => d.create createPauseRequest
  | .resume => d.create createResumeRequest
  | .stepInto => d.create createStepIntoRequest
  | .stepOver => d.create createStepOverRequest
  | .stepOut => d.create createStepOutRequest
  | .getLocals => d.create createGetLocalsRequest
  | .addBreakpoint filename line =>
      match d.pendBreakpoint (filename, line) with
      | none => (d, .idle)
      | some d' => (d', .pended (filename, line))
  | .removeBreakpoint filename line =>
      let (id, d') := d.takeBreakpoint (filename, line)
      if id ≠ -1 then (d', .taken id) else (d', .idle)

def continueCall (d : DukDebugger) : CallState → DukDebugger × CallState
  | .idle => (d, .idle)
  | .pended place => d.create (createAddBreakpointRequest place.1 place.2)
  | .taken id => d.create (createRemoveBreakpointRequest id)
  | .created request => (d.refillDataToSend request.frame, .idle)

/-- The sections of a method without interruption. -/
def perform (d : DukDebugger) (method : Method) : DukDebugger :=
  let s₁ := d.startCall method
  let s₂ := s₁.1.continueCall s₁.2
  (s₂.1.continueCall s₂.2).1

/-- Without interruption, the sections of a method do what the method does. -/
theorem perform_eq (d : DukDebugger) (method : Method) :
    d.perform method =
      match method with
      | .pause => d.pause
      | .resume => d.resume
      | .stepInto => d.stepInto
      | .stepOver => d.stepOver
      | .stepOut => d.stepOut
      | .getLocals => d.getLocals
      | .addBreakpoint filename line => d.addBreakpoint filename line
      | .removeBreakpoint filename line => d.removeBreakpoint filename line := by
  cases method with
  | addBreakpoint filename line =>
      simp only [perform, startCall, addBreakpoint]
      cases d.pendBreakpoint (filename, line) with
      | none => rfl
      | some d' => rfl
  | removeBreakpoint filename line =>
      simp only [perform, startCall, removeBreakpoint]
      split_ifs with hid
      · rfl
      · rfl
  | pause => rfl
  | resume => rfl
  | stepInto => rfl
  | stepOver => rfl
  | stepOut => rfl
  | getLocals => rfl

theorem refillDataToSend_eq (d : DukDebugger) (newData : Bytes) :
    d.refillDataToSend newData = { d with outputBuffer := d.outputBuffer ++ newData } := by
  rw [refillDataToSend]
  split_ifs with hempty
  · rw [List.length_eq_zero_iff.mp hempty, List.append_nil]
  · rfl

theorem innerSendData_eq (d : DukDebugger) (length : ℕ) :
    d.innerSendData length =
      (d.outputBuffer.take length, { d with outputBuffer := d.outputBuffer.drop length }) := by
  rw [innerSendData]
  split_ifs with hlt
  · rfl
  · rw [List.take_of_length_le (Nat.le_of_not_lt hlt), List.drop_of_length_le (Nat.le_of_not_lt hlt)]

/-- What the read callback returns and what stays behind it. -/
theorem innerSendData_append (d : DukDebugger) (length : ℕ) :
    (d.innerSendData length).1 ++ (d.innerSendData length).2.outputBuffer = d.outputBuffer := by
  rw [innerSendData_eq]
  exact List.take_append_drop _ _

theorem findBreakpoint_eq_none_iff (d : DukDebugger) (place : Place) :
    d.findBreakpoint place = none ↔ ∀ id : Int, d.breakpointMap[id]? ≠ some place := by
  rw [findBreakpoint, Option.map_eq_none_iff, List.find?_eq_none]
  constructor
  · intro h id hid
    exact h (id, place) (Std.ExtTreeMap.mem_toList_iff_getElem?_eq_some.mpr hid) (by simp)
  · rintro h ⟨id, place'⟩ hmem heq
    have hplace : place' = place := of_decide_eq_true heq
    rw [hplace] at hmem
    exact h id (Std.ExtTreeMap.mem_toList_iff_getElem?_eq_some.mp hmem)

theorem findBreakpoint_eq_some {d : DukDebugger} {place : Place} {id : Int}
    (h : d.findBreakpoint place = some id) :
    d.breakpointMap[id]? = some place ∧ ∀ j < id, d.breakpointMap[j]? ≠ some place := by
  obtain ⟨⟨id', place'⟩, hfind, rfl⟩ := Option.map_eq_some_iff.mp h
  obtain ⟨hplace, before, after, hlist, hbefore⟩ := List.find?_eq_some_iff_append.mp hfind
  have hplace : place' = place := of_decide_eq_true hplace
  subst hplace
  constructor
  · apply Std.ExtTreeMap.mem_toList_iff_getElem?_eq_some.mp
    rw [hlist]
    exact List.mem_append_right _ List.mem_cons_self
  · intro j hj hmap
    have hmem := Std.ExtTreeMap.mem_toList_iff_getElem?_eq_some.mpr hmap
    have hordered := d.breakpointMap.ordered_keys_toList
    rw [hlist] at hmem hordered
    rcases List.mem_append.mp hmem with hleft | hright
    · have hne := hbefore _ hleft
      simp at hne
    · rcases List.mem_cons.mp hright with heq | hafter
      · exact absurd (Prod.mk.inj heq).1 (Int.ne_of_lt hj)
      · have hpair := (List.pairwise_cons.mp (List.pairwise_append.mp hordered).2.1).1 _ hafter
        exact lt_asymm hj (compare_lt_iff_lt.mp hpair)

end DukDebugger

end Debugger

end UnifyFramework
