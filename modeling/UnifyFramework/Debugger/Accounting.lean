import UnifyFramework.Debugger.Received
import UnifyFramework.Duktape.Read
import UnifyFramework.Transition.Run

/-!
# Request and reply accounting

A session of the receiver with Duktape: requests push their recognizers, Duktape
writes notifications and answers the requests in order, with a reply or with an
error, and the bytes it has written arrive in fragments. A session is accounted for
when every message that has arrived completely has had its effect: its receiver was
called, an answered request is off the queue, and its bytes are off the buffer.

The receiver has no grammar for the error marker and none for some values, and such
a message stays at the front of the buffer for ever. So a session is accounted for
exactly as long as all the messages that have arrived are supported.
-/

namespace UnifyFramework

namespace Debugger

open Parsing Parsing.Parser Duktape Transition

/-- The receiver in a session, with the recognizers pushed, the messages Duktape has
written and the receiver calls made since its start. -/
structure Session where
  receiver : GrammarReceiver
  requests : List ReplyRecognizer
  written : List DukMessage
  calls : List Callback
  deriving DecidableEq

inductive SessionEvent
  | request (k : ReplyRecognizer)
  | write (m : DukMessage)
  | put (data : Bytes)
  deriving DecidableEq

namespace Session

def init : Session := ⟨⟨[], [], []⟩, [], [], []⟩

/-- Duktape writes notifications at any time, and otherwise an answer to the oldest
request it has not answered. What has arrived is always the beginning of what it has
written. -/
def step (sign : CharSign) (s : Session) : SessionEvent → Option Session
  | .request k =>
      some { s with
        receiver := { s.receiver with recognizerQueue := s.receiver.recognizerQueue ++ [k] }
        requests := s.requests ++ [k] }
  | .write m =>
      if (receiveAll (s.written ++ [m]) s.requests).isSome then
        some { s with written := s.written ++ [m] }
      else none
  | .put data =>
      if s.receiver.totalSavedData ++ data <+: streamBytes s.written then
        some { s with
          receiver := (s.receiver.put sign data).2
          calls := s.calls ++ (s.receiver.put sign data).1 }
      else none

def arrived (s : Session) : List DukMessage :=
  delivered s.receiver.totalSavedData.length s.written

/-- Every message that has arrived has been received: the receivers were called for
them in order, the recognizers of the answered requests are gone, and the buffer holds
only the bytes behind them. -/
def Accounted (s : Session) : Prop :=
  receiveAll s.arrived s.requests = some (s.calls, s.receiver.recognizerQueue) ∧
    s.receiver.totalSavedData = streamBytes s.arrived ++ s.receiver.savedData

instance (s : Session) : Decidable s.Accounted := inferInstanceAs (Decidable (_ ∧ _))

def Progress (s : Session) : Prop :=
  ∃ accepted waiting, s.written = accepted ++ waiting ∧
    Received s.receiver s.requests s.calls accepted waiting

theorem progress_init : init.Progress := ⟨[], [], rfl, Received.init⟩

theorem progress_step (sign : CharSign) (s : Session) (e : SessionEvent) (s' : Session)
    (h : s.Progress) (hstep : step sign s e = some s') : s'.Progress := by
  obtain ⟨accepted, waiting, hwritten, hrec⟩ := h
  cases e with
  | request k =>
      cases hstep
      exact ⟨accepted, waiting, hwritten, hrec.request k⟩
  | write m =>
      rw [step] at hstep
      split_ifs at hstep with hm
      cases hstep
      refine ⟨accepted, waiting ++ [m], by rw [hwritten, List.append_assoc], hrec.write ?_⟩
      rw [hwritten, List.append_assoc, receiveAll_append, hrec.received, Option.bind_some,
        Option.isSome_map] at hm
      exact hm
  | put data =>
      rw [step] at hstep
      split_ifs at hstep with hdata
      cases hstep
      rw [hwritten, streamBytes_append, hrec.bytes, List.append_assoc,
        List.prefix_append_right_inj] at hdata
      obtain ⟨more, waiting', hsplit, _, hrec'⟩ := hrec.put sign hdata
      exact ⟨accepted ++ more, waiting', by rw [hwritten, hsplit, List.append_assoc], hrec'⟩

/-- In every state of every session, the session is accounted for if and only if every
message that has arrived is supported. -/
theorem accounted_iff_supported (sign : CharSign) (es : List SessionEvent) (s : Session)
    (hrun : run (step sign) init es = some s) :
    s.Accounted ↔ ∀ m ∈ s.arrived, m.Supported := by
  obtain ⟨accepted, waiting, hwritten, hrec⟩ :=
    run_invariant (I := Progress) (progress_step sign) progress_init hrun
  have harrived : s.arrived = accepted ++ delivered s.receiver.savedData.length waiting := by
    rw [arrived, hrec.bytes, List.length_append, hwritten, delivered_append]
  cases hrest : delivered s.receiver.savedData.length waiting with
  | nil =>
      rw [hrest, List.append_nil] at harrived
      rw [Accounted, harrived]
      exact ⟨fun _ => hrec.supported, fun _ => ⟨hrec.received, hrec.bytes⟩⟩
  | cons m rest =>
      obtain ⟨hhead, hle⟩ := head?_of_delivered hrest
      have hm : ¬ m.Supported := fun h => Nat.not_lt_of_le hle (hrec.blocked m hhead h)
      rw [hrest] at harrived
      rw [Accounted, harrived]
      -- the bytes of `m` are still on the buffer, so the lengths do not add up
      constructor
      · rintro ⟨_, hbytes⟩
        have hlen := congrArg List.length (hrec.bytes.symm.trans hbytes)
        have hpos := List.length_pos_of_ne_nil (bytes_ne_nil m)
        simp only [streamBytes_append, streamBytes_cons, List.length_append] at hlen
        omega
      · intro hall
        exact absurd (hall m (by simp)) hm

/-- An AddBreakpoint request is answered with its index, in two fragments, and the
program then stops. -/
def answeredSession : List SessionEvent :=
  [.request .replyAddBreakpoint, .write (.reply (.index 0)), .put [0x02], .put [0x80, 0x00],
    .write (.status 1 none), .put (DukMessage.bytes (.status 1 none))]

theorem accounted_answeredSession :
    ∃ s, run (step .signed) init answeredSession = some s ∧
      (s.Accounted ↔ ∀ m ∈ s.arrived, m.Supported) ∧ s.receiver.recognizerQueue = [] ∧
      s.calls.length = 2 :=
  ⟨_, rfl, accounted_iff_supported .signed answeredSession _ rfl, by decide, by decide⟩

def errorSession : List SessionEvent :=
  [.request .replyAddBreakpoint, .write noSpaceForBreakpoint, .put noSpaceForBreakpoint.bytes,
    .write (.status 1 none), .put (DukMessage.bytes (.status 1 none))]

/-- The recognizer stays on the queue, the error stays on the buffer, and the Status
notification behind it is not delivered. -/
theorem not_accounted_errorSession :
    ∃ s, run (step .signed) init errorSession = some s ∧ ¬ s.Accounted ∧
      s.receiver.recognizerQueue = [.replyAddBreakpoint] ∧ s.calls = [] ∧
      s.receiver.savedData = streamBytes s.arrived :=
  ⟨_, rfl, by decide, by decide, by decide, by decide⟩

end Session

end Debugger

end UnifyFramework
