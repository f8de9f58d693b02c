import UnifyFramework.Debugger.Client
import UnifyFramework.Transition.Locking
import UnifyFramework.Transition.Run

/-!
# The locks of the debugger

`DukDebugger` and its `GrammarReceiver` have three mutexes, none of them recursive. A request
method takes them one after the other and holds one at a time. `put`, which Duktape calls in
its own thread, calls the receivers of notifications without a lock, but those of replies
with `recognizerQueueMutex`, and `onAddBreakpoint` takes `breakpointPendingMutex` on top.
What a receiver calls in turn is called with these locks held. So a receiver of a reply that
sends a request asks for a mutex its thread already owns. It may only add a breakpoint that is
there or remove one that is not, since these calls return before they come to a request.
-/

namespace UnifyFramework

namespace Debugger

open Transition Transition.Locking

inductive Mutex
  | recognizerQueueMutex
  | breakpointPendingMutex
  | outputBufferMutex
  deriving DecidableEq, Repr

open Mutex

inductive Act
  | insert (data : Bytes)
  | eatDefault
  | eatQueue
  | receive (callback : Callback)
  | popRecognizer
  | pushRecognizer (k : ReplyRecognizer)
  | refillDataToSend (newData : Bytes)
  | pendBreakpoint (place : Place)
  | takeBreakpoint (place : Place)
  | read (length : ℕ)
  | peek
  deriving DecidableEq

abbrev Code := List (Instr Mutex Act)

/-- `RefillDataToSend(grammarReceiver.Create*Request())`. -/
def sendCode (request : Request) : Code :=
  [.lock recognizerQueueMutex, .act (.pushRecognizer request.recognizer),
    .unlock recognizerQueueMutex] ++
  if request.frame.length = 0 then []
  else [.lock outputBufferMutex, .act (.refillDataToSend request.frame), .unlock outputBufferMutex]

def methodCode : Method → Code
  | .pause => sendCode createPauseRequest
  | .resume => sendCode createResumeRequest
  | .stepInto => sendCode createStepIntoRequest
  | .stepOver => sendCode createStepOverRequest
  | .stepOut => sendCode createStepOutRequest
  | .getLocals => sendCode createGetLocalsRequest
  | .addBreakpoint filename line =>
      [.lock breakpointPendingMutex, .act (.pendBreakpoint (filename, line))]
  | .removeBreakpoint filename line =>
      [.lock breakpointPendingMutex, .act (.takeBreakpoint (filename, line))]

/-- A receiver. `onAddBreakpoint` holds its lock to the end. -/
def receiverCode : Callback → Code
  | .replyAddBreakpointReceiver value =>
      [.lock breakpointPendingMutex, .act (.receive (.replyAddBreakpointReceiver value)),
        .unlock breakpointPendingMutex]
  | callback => [.act (.receive callback)]

/-- `GrammarReceiver::put`. -/
def putCode (data : Bytes) : Code := [.act (.insert data), .act .eatDefault]

/-- `duk_trans_dvalue_read`. -/
def readCode (length : ℕ) : Code := [.lock outputBufferMutex, .act (.read length)]

/-- `duk_trans_dvalue_peek`. -/
def peekCode : Code := [.lock outputBufferMutex, .act .peek, .unlock outputBufferMutex]

namespace DukDebugger

def setSavedData (d : DukDebugger) (savedData : Bytes) : DukDebugger :=
  { d with grammarReceiver := { d.grammarReceiver with savedData := savedData } }

def popRecognizer (d : DukDebugger) : DukDebugger :=
  { d with
    grammarReceiver :=
      { d.grammarReceiver with recognizerQueue := d.grammarReceiver.recognizerQueue.tail } }

/-- What an act does and what comes of it. `methods` are the request methods that the receiver
calls, if the act is a call of a receiver. -/
def exec (sign : CharSign) (d : DukDebugger) (a : Act) (methods : List Method) :
    DukDebugger × Code :=
  match a with
  | .insert data => ({ d with grammarReceiver := d.grammarReceiver.insert data }, [])
  | .eatDefault =>
      match defaultRecognizers.findSome? fun r => r.eat d.grammarReceiver.savedData with
      | some (calls, rest) =>
          (d.setSavedData rest, calls.flatMap receiverCode ++
            [.lock recognizerQueueMutex, .unlock recognizerQueueMutex, .act .eatDefault])
      | none => (d, [.lock recognizerQueueMutex, .act .eatQueue])
  | .eatQueue =>
      match d.grammarReceiver.recognizerQueue with
      | [] => (d, [.unlock recognizerQueueMutex])
      | k :: _ =>
          match k.eat sign d.grammarReceiver.savedData with
          | none => (d, [.unlock recognizerQueueMutex])
          | some (calls, rest) =>
              (d.setSavedData rest, calls.flatMap receiverCode ++
                [.act .popRecognizer, .unlock recognizerQueueMutex, .act .eatDefault])
  | .receive callback => (d.call callback, methods.flatMap methodCode)
  | .popRecognizer => (d.popRecognizer, [])
  | .pushRecognizer k => (d.pushRecognizer k, [])
  | .refillDataToSend newData => (d.refillDataToSend newData, [])
  | .pendBreakpoint place =>
      match d.pendBreakpoint place with
      | none => (d, [.unlock breakpointPendingMutex])
      | some d' =>
          (d', .unlock breakpointPendingMutex ::
            sendCode (createAddBreakpointRequest place.1 place.2))
  | .takeBreakpoint place =>
      let (id, d') := d.takeBreakpoint place
      (d', .unlock breakpointPendingMutex ::
        if id ≠ -1 then sendCode (createRemoveBreakpointRequest id) else [])
  | .read length =>
      if d.outputBuffer.length > 0 then
        ((d.innerSendData length).2, [.unlock outputBufferMutex])
      else
        -- the wait gives the lock back and takes it again
        (d, [.unlock outputBufferMutex, .lock outputBufferMutex, .act (.read length)])
  | .peek => (d, [])

end DukDebugger

abbrev Threads (τ : Type) := State τ Mutex Act DukDebugger

/-- What a thread does: it enters a method, or it goes on in the method it is in. If it is at
a receiver, this receiver calls `methods`. -/
inductive ThreadEvent
  | call (method : Method)
  | write (data : Bytes)
  | read (length : ℕ)
  | peek
  | advance (methods : List Method)

namespace Threads

variable {τ : Type} [DecidableEq τ]

def init : Threads τ := ⟨DukDebugger.init, fun _ => none, fun _ => []⟩

/-- The callbacks of Duktape run in the thread `js`, the request methods in any thread. -/
def step (sign : CharSign) (js : τ) (s : Threads τ) : τ × ThreadEvent → Option (Threads τ)
  | (t, .call method) => start s t (methodCode method)
  | (t, .write data) => if t = js then start s t (putCode data) else none
  | (t, .read length) => if t = js then start s t (readCode length) else none
  | (t, .peek) => if t = js then start s t peekCode else none
  | (t, .advance methods) => Locking.advance (DukDebugger.exec sign) s t methods

end Threads

def Callback.isNotification : Callback → Bool
  | .versionIdentificationReceiver _ | .statusNotificationReceiver _
  | .exceptionNotificationReceiver _ => true
  | .replyAddBreakpointReceiver _ | .replyRemoveBreakpointReceiver _
  | .replyNameValueArrayReceiver _ => false

def Method.looksFirst : Method → Bool
  | .addBreakpoint _ _ | .removeBreakpoint _ _ => true
  | .pause | .resume | .stepInto | .stepOver | .stepOut | .getLocals => false

/-- The condition on an act. `inReply` says that it is part of a receiver of a reply. -/
def Restrained (d : DukDebugger) (inReply : Prop) (methods : List Method) : Act → Prop
  | .receive (.replyAddBreakpointReceiver _) => methods = []
  | .receive (.replyRemoveBreakpointReceiver _) | .receive (.replyNameValueArrayReceiver _) =>
      ∀ method ∈ methods, method.looksFirst = true
  | .pendBreakpoint place => inReply → (d.findBreakpoint place).isSome = true
  | .takeBreakpoint place => inReply → (d.takeBreakpoint place).1 = -1
  | _ => True

instance decidableRestrained (d : DukDebugger) (inReply : Prop) [Decidable inReply]
    (methods : List Method) : (a : Act) → Decidable (Restrained d inReply methods a)
  | .receive callback =>
      match callback with
      | .replyAddBreakpointReceiver _ => inferInstanceAs (Decidable (methods = []))
      | .replyRemoveBreakpointReceiver _ | .replyNameValueArrayReceiver _ =>
          inferInstanceAs (Decidable (∀ method ∈ methods, method.looksFirst = true))
      | .versionIdentificationReceiver _ | .statusNotificationReceiver _
      | .exceptionNotificationReceiver _ => inferInstanceAs (Decidable True)
  | .pendBreakpoint place =>
      inferInstanceAs (Decidable (inReply → (d.findBreakpoint place).isSome = true))
  | .takeBreakpoint place =>
      inferInstanceAs (Decidable (inReply → (d.takeBreakpoint place).1 = -1))
  | .insert _ | .eatDefault | .eatQueue | .popRecognizer | .pushRecognizer _
  | .refillDataToSend _ | .read _ | .peek => inferInstanceAs (Decidable True)

namespace Threads

variable {τ : Type} [DecidableEq τ]

def nextAct (s : Threads τ) (t : τ) : Option Act :=
  match s.code t with
  | .act a :: _ => some a
  | _ => none

/-- A receiver of a reply calls no method that sends a request. A thread that looks for a
breakpoint and owns `recognizerQueueMutex` is in such a receiver. -/
def RestrainedAt (s : Threads τ) : τ × ThreadEvent → Prop
  | (t, .advance methods) => ∀ a ∈ s.nextAct t,
      Restrained s.data (s.owner recognizerQueueMutex = some t) methods a
  | (_, .call _) | (_, .write _) | (_, .read _) | (_, .peek) => True

instance decidableRestrainedAt (s : Threads τ) :
    (e : τ × ThreadEvent) → Decidable (s.RestrainedAt e)
  | (t, .advance methods) => inferInstanceAs (Decidable (∀ a ∈ s.nextAct t,
      Restrained s.data (s.owner recognizerQueueMutex = some t) methods a))
  | (_, .call _) | (_, .write _) | (_, .read _) | (_, .peek) => inferInstanceAs (Decidable True)

end Threads

/-- The order in which the mutexes are taken. -/
def rank : Mutex → ℕ
  | recognizerQueueMutex => 0
  | breakpointPendingMutex => 1
  | outputBufferMutex => 2

def keeps : Act → List Mutex → Option (List Mutex)
  | .insert _, [] | .eatDefault, [] => some []
  | .eatQueue, [recognizerQueueMutex] => some []
  | .receive (.replyAddBreakpointReceiver _), [breakpointPendingMutex, recognizerQueueMutex] =>
      some [breakpointPendingMutex, recognizerQueueMutex]
  | .receive (.replyRemoveBreakpointReceiver _), [recognizerQueueMutex] =>
      some [recognizerQueueMutex]
  | .receive (.replyNameValueArrayReceiver _), [recognizerQueueMutex] =>
      some [recognizerQueueMutex]
  | .receive (.versionIdentificationReceiver _), [] => some []
  | .receive (.statusNotificationReceiver _), [] => some []
  | .receive (.exceptionNotificationReceiver _), [] => some []
  | .popRecognizer, [recognizerQueueMutex] => some [recognizerQueueMutex]
  | .pushRecognizer _, [recognizerQueueMutex] => some [recognizerQueueMutex]
  | .refillDataToSend _, [outputBufferMutex] => some [outputBufferMutex]
  | .pendBreakpoint _, [breakpointPendingMutex] => some []
  | .pendBreakpoint _, [breakpointPendingMutex, recognizerQueueMutex] =>
      some [recognizerQueueMutex]
  | .takeBreakpoint _, [breakpointPendingMutex] => some []
  | .takeBreakpoint _, [breakpointPendingMutex, recognizerQueueMutex] =>
      some [recognizerQueueMutex]
  | .read _, [outputBufferMutex] => some []
  | .peek, [outputBufferMutex] => some [outputBufferMutex]
  | _, _ => none

theorem after_sendCode (request : Request) : after rank keeps [] (sendCode request) = some [] := by
  rw [sendCode]
  split_ifs
  · rfl
  · rfl

theorem after_methodCode (method : Method) :
    after rank keeps [] (methodCode method) = some [] := by
  cases method with
  | addBreakpoint | removeBreakpoint => rfl
  | pause | resume | stepInto | stepOver | stepOut | getLocals => exact after_sendCode _

/-- In a receiver of a reply, a method that looks for a breakpoint first stays in order. -/
theorem after_methodCode_of_looksFirst {method : Method} (h : method.looksFirst = true) :
    after rank keeps [recognizerQueueMutex] (methodCode method) =
      some [recognizerQueueMutex] := by
  cases method with
  | addBreakpoint | removeBreakpoint => rfl
  | pause | resume | stepInto | stepOver | stepOut | getLocals => cases h

theorem after_receiverCode_of_notification {callback : Callback}
    (h : callback.isNotification = true) :
    after rank keeps [] (receiverCode callback) = some [] := by
  cases callback with
  | versionIdentificationReceiver | statusNotificationReceiver
  | exceptionNotificationReceiver => rfl
  | replyAddBreakpointReceiver | replyRemoveBreakpointReceiver
  | replyNameValueArrayReceiver => cases h

theorem after_receiverCode_of_reply {callback : Callback}
    (h : callback.isNotification = false) :
    after rank keeps [recognizerQueueMutex] (receiverCode callback) =
      some [recognizerQueueMutex] := by
  cases callback with
  | versionIdentificationReceiver | statusNotificationReceiver
  | exceptionNotificationReceiver => cases h
  | replyAddBreakpointReceiver | replyRemoveBreakpointReceiver
  | replyNameValueArrayReceiver => rfl

theorem exists_of_eatWith {α : Type} {grammar : Parsing.Parser UInt8 α}
    {callback : α → List Callback} {data rest : Bytes} {calls : List Callback}
    (h : eatWith grammar callback data = some (calls, rest)) : ∃ value, calls = callback value := by
  obtain ⟨value, m, _, hpure⟩ := (Parsing.Parser.bind_eq_some_iff _ _ _ _ _).mp h
  cases hpure
  exact ⟨value, rfl⟩

theorem isNotification_of_eat_default {r : DefaultRecognizer} {data rest : Bytes}
    {calls : List Callback} (h : r.eat data = some (calls, rest)) :
    ∀ callback ∈ calls, callback.isNotification = true := by
  cases r with
  | versionIdentification | statusNotification | exceptionNotification =>
      obtain ⟨value, rfl⟩ := exists_of_eatWith h
      exact List.forall_mem_singleton.mpr rfl

theorem isNotification_of_eat_reply {sign : CharSign} {k : ReplyRecognizer} {data rest : Bytes}
    {calls : List Callback} (h : k.eat sign data = some (calls, rest)) :
    ∀ callback ∈ calls, callback.isNotification = false := by
  cases k with
  | reply =>
      obtain ⟨value, rfl⟩ := exists_of_eatWith h
      simp
  | replyRemoveBreakpoint | replyAddBreakpoint | replyNameValueArray =>
      obtain ⟨value, rfl⟩ := exists_of_eatWith h
      exact List.forall_mem_singleton.mpr rfl

theorem after_eatDefault (sign : CharSign) (d : DukDebugger) (methods : List Method) :
    after rank keeps [] (d.exec sign .eatDefault methods).2 = some [] := by
  rw [DukDebugger.exec]
  split
  · next calls rest heat =>
      obtain ⟨r, _, hr⟩ := List.exists_of_findSome?_eq_some heat
      have hcalls : after rank keeps [] (calls.flatMap receiverCode) = some [] :=
        after_flatMap fun callback hmem =>
          after_receiverCode_of_notification (isNotification_of_eat_default hr callback hmem)
      rw [after_append, hcalls]
      rfl
  · rfl

theorem after_eatQueue (sign : CharSign) (d : DukDebugger) (methods : List Method) :
    after rank keeps [recognizerQueueMutex] (d.exec sign .eatQueue methods).2 = some [] := by
  rw [DukDebugger.exec]
  split
  · rfl
  · split
    · rfl
    · next calls rest heat =>
        have hcalls : after rank keeps [recognizerQueueMutex] (calls.flatMap receiverCode) =
            some [recognizerQueueMutex] :=
          after_flatMap fun callback hmem =>
            after_receiverCode_of_reply (isNotification_of_eat_reply heat callback hmem)
        rw [after_append, hcalls]
        rfl

theorem after_pendBreakpoint (sign : CharSign) (d : DukDebugger) (place : Place)
    (methods : List Method) :
    after rank keeps [breakpointPendingMutex] (d.exec sign (.pendBreakpoint place) methods).2 =
      some [] := by
  rw [DukDebugger.exec]
  split
  · rfl
  · exact after_sendCode _

/-- The breakpoint is there, so that no request follows. -/
theorem after_pendBreakpoint_of_isSome {d : DukDebugger} {place : Place}
    (h : (d.findBreakpoint place).isSome = true) (sign : CharSign) (methods : List Method) :
    after rank keeps [breakpointPendingMutex, recognizerQueueMutex]
      (d.exec sign (.pendBreakpoint place) methods).2 = some [recognizerQueueMutex] := by
  rw [DukDebugger.exec, DukDebugger.pendBreakpoint, if_pos h]
  rfl

theorem after_takeBreakpoint (sign : CharSign) (d : DukDebugger) (place : Place)
    (methods : List Method) :
    after rank keeps [breakpointPendingMutex] (d.exec sign (.takeBreakpoint place) methods).2 =
      some [] := by
  simp only [DukDebugger.exec]
  split_ifs
  · exact after_sendCode _
  · rfl

/-- There is no such breakpoint, so that no request follows. -/
theorem after_takeBreakpoint_of_eq {d : DukDebugger} {place : Place}
    (h : (d.takeBreakpoint place).1 = -1) (sign : CharSign) (methods : List Method) :
    after rank keeps [breakpointPendingMutex, recognizerQueueMutex]
      (d.exec sign (.takeBreakpoint place) methods).2 = some [recognizerQueueMutex] := by
  simp only [DukDebugger.exec, h]
  rfl

theorem after_read (sign : CharSign) (d : DukDebugger) (length : ℕ) (methods : List Method) :
    after rank keeps [outputBufferMutex] (d.exec sign (.read length) methods).2 = some [] := by
  rw [DukDebugger.exec]
  split_ifs
  · rfl
  · rfl

/-- Under the condition, every act does to the locks what it is allowed to do. -/
theorem after_exec {sign : CharSign} {d : DukDebugger} {a : Act} {methods : List Method}
    {inReply : Prop} {held held' : List Mutex} (hreply : recognizerQueueMutex ∈ held → inReply)
    (hrestrained : Restrained d inReply methods a) (hkeeps : keeps a held = some held') :
    after rank keeps held (d.exec sign a methods).2 = some held' := by
  have hmethods : after rank keeps [] (methods.flatMap methodCode) = some [] :=
    after_flatMap fun method _ => after_methodCode method
  have hinReply : (∀ method ∈ methods, method.looksFirst = true) →
      after rank keeps [recognizerQueueMutex] (methods.flatMap methodCode) =
        some [recognizerQueueMutex] :=
    fun h => after_flatMap fun method hmem => after_methodCode_of_looksFirst (h method hmem)
  -- the cases are the lines of `keeps`, in their order
  unfold keeps at hkeeps
  split at hkeeps
  all_goals cases hkeeps
  · rfl
  · exact after_eatDefault sign d methods
  · exact after_eatQueue sign d methods
  · rw [show methods = [] from hrestrained]
    rfl
  · exact hinReply hrestrained
  · exact hinReply hrestrained
  · exact hmethods
  · exact hmethods
  · exact hmethods
  · rfl
  · rfl
  · rfl
  · exact after_pendBreakpoint sign d _ methods
  · exact after_pendBreakpoint_of_isSome (hrestrained (hreply (by simp))) sign methods
  · exact after_takeBreakpoint sign d _ methods
  · exact after_takeBreakpoint_of_eq (hrestrained (hreply (by simp))) sign methods
  · exact after_read sign d _ methods
  · rfl

namespace Threads

variable {τ : Type}

theorem disciplined_init : Disciplined rank keeps (init : Threads τ) :=
  Disciplined.of_idle (fun _ => rfl) fun _ => rfl

theorem nextAct_of_code {s : Threads τ} {t : τ} {a : Act} {rest : Code}
    (h : s.code t = .act a :: rest) : s.nextAct t = some a := by
  rw [nextAct, h]

variable [DecidableEq τ] {sign : CharSign} {js : τ}

theorem disciplined_step {s s' : Threads τ} {e : τ × ThreadEvent} (h : Disciplined rank keeps s)
    (hrestrained : s.RestrainedAt e) (hs : step sign js s e = some s') :
    Disciplined rank keeps s' := by
  obtain ⟨t, e⟩ := e
  cases e with
  | call method => exact h.start (after_methodCode method) hs
  | write data =>
      rw [step, Option.ite_none_right_eq_some] at hs
      exact h.start rfl hs.2
  | read length =>
      rw [step, Option.ite_none_right_eq_some] at hs
      exact h.start rfl hs.2
  | peek =>
      rw [step, Option.ite_none_right_eq_some] at hs
      exact h.start rfl hs.2
  | advance methods =>
      refine h.advance (fun a rest held held' hcode howner hkeeps => ?_) hs
      exact after_exec (howner recognizerQueueMutex).mpr
        (hrestrained a (nextAct_of_code hcode)) hkeeps

/-- If no receiver of a reply sends a request, no thread ever asks for a mutex it owns, and no
two threads ever wait for each other. -/
theorem deadlockFree_of_restrained (sign : CharSign) (js : τ) {s : Threads τ}
    {events : List (τ × ThreadEvent)}
    (hrestrained : Along (step sign js) RestrainedAt init events)
    (hrun : run (step sign js) init events = some s) : s.DeadlockFree := by
  have hdisciplined : Disciplined rank keeps s :=
    run_invariant_along (fun s e s' h hr hs => disciplined_step h hr hs) disciplined_init
      hrestrained hrun
  exact hdisciplined.deadlockFree

def ui : Bool := false

/-- A thread goes on, and no receiver it comes to calls anything. -/
def proceed (t : Bool) (n : ℕ) : List (Bool × ThreadEvent) := List.replicate n (t, .advance [])

/-- The locals are requested, and the reply arrives without any. -/
def localsArrive : List (Bool × ThreadEvent) :=
  (ui, .call .getLocals) :: proceed ui 6 ++ (true, .write [0x02, 0x00]) :: proceed true 4

/-- The receiver of the locals requests them again, and asks for a mutex its thread owns. -/
theorem not_deadlockFree_localsAgain :
    ∃ s ∈ run (step .unsigned true) init (localsArrive ++ [(true, .advance [.getLocals])]),
      s.Wants true recognizerQueueMutex ∧ s.owner recognizerQueueMutex = some true ∧
        ¬ s.DeadlockFree := by
  obtain ⟨s, hs, hwants, hown⟩ : ∃ s ∈ run (step .unsigned true) init
      (localsArrive ++ [(true, .advance [.getLocals])]),
      s.Wants true recognizerQueueMutex ∧ s.owner recognizerQueueMutex = some true := by
    decide
  exact ⟨s, hs, hwants, hown, fun h => h.self _ _ hwants hown⟩

/-- While a thread of the user interface requests a pause, the receiver of a status notification
requests the locals. -/
def statusArrives : List (Bool × ThreadEvent) :=
  (ui, .call .pause) :: proceed ui 2 ++
    (true, .write [0x04, 0x81, 0x80, 0x61, 0x61, 0x61, 0x62, 0x80, 0x80, 0x00]) ::
      proceed true 2 ++ [(true, .advance [.getLocals])]

theorem deadlockFree_statusArrives :
    ∃ s ∈ run (step .unsigned true) init statusArrives, s.WaitsFor true ui ∧ s.DeadlockFree := by
  obtain ⟨s, hs, hwants, hown⟩ : ∃ s ∈ run (step .unsigned true) init statusArrives,
      s.Wants true recognizerQueueMutex ∧ s.owner recognizerQueueMutex = some ui := by
    decide
  exact ⟨s, hs, ⟨_, hwants, hown⟩, deadlockFree_of_restrained .unsigned true (by decide) hs⟩

end Threads

end Debugger

end UnifyFramework
