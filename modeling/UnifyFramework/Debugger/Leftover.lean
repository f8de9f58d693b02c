import UnifyFramework.Debugger.System
import UnifyFramework.Duktape.Read

/-!
# What `clearLeftover` recovers

A receiver with a message at the front of its buffer that no recognizer accepts is
stuck, and `clearLeftover` empties the buffer. The queue is left as it was, with the
recognizers of the requests that the discarded messages answered still at its front.
Later messages are received as they should if and only if these recognizers make no
difference: without them, the queue is an initial part of the queue with them. With the
requests that are made afterwards, they make a difference whenever there is one of them.
-/

namespace UnifyFramework

namespace Debugger

open Parsing Parsing.Parser Duktape Transition

namespace GrammarReceiver

/-- `savedData` holds the complete messages `discarded`, no recognizer accepts the first of
them, and the requests behind those they answer are `unanswered`. -/
structure Stuck (sign : CharSign) (r : GrammarReceiver) (discarded : List DukMessage)
    (unanswered : List ReplyRecognizer) : Prop where
  saved : r.savedData = streamBytes discarded
  nonempty : discarded ≠ []
  refused : round sign r = none
  answers : ∃ calls, receiveAll discarded r.recognizerQueue = some (calls, unanswered)

/-- After `clearLeftover`, supported messages that answer the requests in order are
delivered one by one. -/
def Recovers (sign : CharSign) (r : GrammarReceiver) (unanswered : List ReplyRecognizer) : Prop :=
  ∀ messages calls rest, (∀ m ∈ messages, m.Supported) →
    receiveAll messages unanswered = some (calls, rest) →
    (r.clearLeftover.put sign (streamBytes messages)).1 = calls ∧
      (r.clearLeftover.put sign (streamBytes messages)).2.savedData = []

/-- What `Recovers` says of a receiver with an empty buffer. -/
def DeliversAll (sign : CharSign) (total : Bytes) (queue unanswered : List ReplyRecognizer) : Prop :=
  ∀ messages calls rest, (∀ m ∈ messages, m.Supported) →
    receiveAll messages unanswered = some (calls, rest) →
    (put sign ⟨total, [], queue⟩ (streamBytes messages)).1 = calls ∧
      (put sign ⟨total, [], queue⟩ (streamBytes messages)).2.savedData = []

/-- The recognizers at the end of the queue play no part. -/
theorem deliversAll_of_prefix (sign : CharSign) (total : Bytes)
    {queue unanswered : List ReplyRecognizer} (h : unanswered <+: queue) :
    DeliversAll sign total queue unanswered := by
  obtain ⟨more, rfl⟩ := h
  intro messages calls rest hsupp hrec
  have hqueue := receiveAll_queue_append hrec more
  have hstop := Exhausts.stop (round_nil sign (total ++ streamBytes messages) (rest ++ more))
  have hall := exhausts_streamBytes hsupp hqueue hstop
  rw [List.append_nil, List.append_nil] at hall
  have hput : put sign ⟨total, [], unanswered ++ more⟩ (streamBytes messages) =
      (calls, ⟨total ++ streamBytes messages, [], rest ++ more⟩) :=
    put_eq_of_exhausts hall
  rw [hput]
  exact ⟨rfl, rfl⟩

def sampleReply : ReplyRecognizer → DukReply
  | .reply => .empty
  | .replyRemoveBreakpoint => .empty
  | .replyAddBreakpoint => .index 0
  | .replyNameValueArray => .locals []

def sampleCalls : ReplyRecognizer → List Callback
  | .reply => []
  | .replyRemoveBreakpoint => [.replyRemoveBreakpointReceiver ⟨[]⟩]
  | .replyAddBreakpoint => [.replyAddBreakpointReceiver ⟨0⟩]
  | .replyNameValueArray => [.replyNameValueArrayReceiver ⟨[]⟩]

theorem supported_sampleReply (k : ReplyRecognizer) : (DukMessage.reply (sampleReply k)).Supported := by
  cases k <;> decide

theorem receive_sampleReply (k : ReplyRecognizer) (queue : List ReplyRecognizer) :
    receive (.reply (sampleReply k)) (k :: queue) = some (sampleCalls k, queue) := by
  cases k <;> rfl

/-- Every recognizer but that of AddBreakpoint eats the empty reply, with calls of its
own. -/
theorem eat_empty (sign : CharSign) (k : ReplyRecognizer) :
    k.eat sign (dukDebugWriteReply .empty) =
      if k = .replyAddBreakpoint then none else some (sampleCalls k, []) := by
  cases k <;> rfl

theorem eat_index (sign : CharSign) (k : ReplyRecognizer) :
    k.eat sign (dukDebugWriteReply (.index 0)) =
      if k = .replyAddBreakpoint then some (sampleCalls k, []) else none := by
  cases k <;> rfl

theorem sampleCalls_injective {k k' : ReplyRecognizer} (h : sampleCalls k' = sampleCalls k) :
    k' = k := by
  cases k <;> cases k' <;> simp_all [sampleCalls]

/-- A recognizer refuses the short reply to another request, or eats it with other calls. -/
theorem eat_sampleReply (sign : CharSign) (k k' : ReplyRecognizer) :
    k'.eat sign (dukDebugWriteReply (sampleReply k)) = none ∨
      k'.eat sign (dukDebugWriteReply (sampleReply k)) = some (sampleCalls k', []) := by
  have hempty := eat_empty sign k'
  have hindex := eat_index sign k'
  cases k with
  | replyAddBreakpoint =>
      rw [sampleReply, hindex]
      exact (ite_eq_or_eq _ _ _).symm
  | reply =>
      rw [sampleReply, hempty]
      exact ite_eq_or_eq _ _ _
  | replyRemoveBreakpoint =>
      rw [sampleReply, hempty]
      exact ite_eq_or_eq _ _ _
  | replyNameValueArray =>
      change k'.eat sign (dukDebugWriteReply .empty) = none ∨
        k'.eat sign (dukDebugWriteReply .empty) = some (sampleCalls k', [])
      rw [hempty]
      exact ite_eq_or_eq _ _ _

theorem put_of_eat {sign : CharSign} (total : Bytes) {k : ReplyRecognizer}
    (queue : List ReplyRecognizer) {data : Bytes} {calls : List Callback}
    (h : k.eat sign data = some (calls, [])) :
    put sign ⟨total, [], k :: queue⟩ data = (calls, ⟨total ++ data, [], queue⟩) := by
  apply put_eq_of_exhausts
  have hround := round_of_reply (r := ⟨total ++ data, data, k :: queue⟩) rfl h
  have hex := Exhausts.more hround (Exhausts.stop (round_nil sign (total ++ data) queue))
  rwa [List.append_nil] at hex

/-- A reply that the head of the queue does not eat stays in the buffer. -/
theorem put_of_refused {sign : CharSign} (total : Bytes) {queue : List ReplyRecognizer}
    (value : DukReply) (h : ∀ k ∈ queue.head?, k.eat sign (dukDebugWriteReply value) = none) :
    (put sign ⟨total, [], queue⟩ (dukDebugWriteReply value)).2.savedData =
      dukDebugWriteReply value := by
  have hnone : round sign ⟨total ++ dukDebugWriteReply value, dukDebugWriteReply value, queue⟩ =
      none := by
    apply round_eq_none_of
    · intro d
      obtain ⟨u, hu⟩ := dukDebugWriteReply_cons value
      simp only [hu]
      exact d.exactFrom_eat.first.cons_eq_none d.rep_not_mem_first _
    · rintro k rest rfl
      exact h k rfl
  have hput : put sign ⟨total, [], queue⟩ (dukDebugWriteReply value) =
      ([], ⟨total ++ dukDebugWriteReply value, dukDebugWriteReply value, queue⟩) :=
    put_eq_of_exhausts (Exhausts.stop hnone)
  rw [hput]

/-- If the short reply to a request is delivered, then its recognizer is at the head of
the queue. -/
theorem head_of_delivered {sign : CharSign} {total : Bytes} {queue : List ReplyRecognizer}
    {k : ReplyRecognizer}
    (hcalls : (put sign ⟨total, [], queue⟩ (dukDebugWriteReply (sampleReply k))).1 = sampleCalls k)
    (hsaved : (put sign ⟨total, [], queue⟩ (dukDebugWriteReply (sampleReply k))).2.savedData = []) :
    ∃ queue', queue = k :: queue' := by
  have hne : dukDebugWriteReply (sampleReply k) ≠ [] := bytes_ne_nil (.reply (sampleReply k))
  cases queue with
  | nil =>
      rw [put_of_refused total _ (by simp)] at hsaved
      exact absurd hsaved hne
  | cons k' queue =>
      rcases eat_sampleReply sign k k' with hrefused | heat
      · rw [put_of_refused total _ (by simpa using hrefused)] at hsaved
        exact absurd hsaved hne
      · rw [put_of_eat total queue heat] at hcalls
        exact ⟨queue, by rw [sampleCalls_injective hcalls]⟩

theorem prefix_of_deliversAll {sign : CharSign} {total : Bytes}
    {queue unanswered : List ReplyRecognizer} (h : DeliversAll sign total queue unanswered) :
    unanswered <+: queue := by
  induction unanswered generalizing total queue with
  | nil => exact List.nil_prefix
  | cons k unanswered ih =>
      have hk := receive_sampleReply k unanswered
      obtain ⟨hcalls, hsaved⟩ := h [.reply (sampleReply k)] (sampleCalls k) unanswered
        (by simpa using supported_sampleReply k)
        (receiveAll_cons_eq_some_iff.mpr ⟨_, _, hk, rfl, by rw [List.append_nil]⟩)
      rw [streamBytes_cons, streamBytes_nil, List.append_nil] at hcalls hsaved
      obtain ⟨queue, rfl⟩ := head_of_delivered hcalls hsaved
      -- the other messages behind the reply that has been delivered
      have hrest : DeliversAll sign (total ++ dukDebugWriteReply (sampleReply k)) queue
          unanswered := by
        intro messages calls rest hsupp hrec
        have hfirst := put_message sign total (receive_sampleReply k queue)
          (supported_sampleReply k)
        obtain ⟨hcalls', hsaved'⟩ := h (.reply (sampleReply k) :: messages)
          (sampleCalls k ++ calls) rest
          (List.forall_mem_cons.mpr ⟨supported_sampleReply k, hsupp⟩)
          (receiveAll_cons_eq_some_iff.mpr ⟨_, _, hk, hrec, rfl⟩)
        rw [streamBytes_cons, put_append, hfirst] at hcalls' hsaved'
        exact ⟨List.append_cancel_left hcalls', hsaved'⟩
      exact (List.cons_prefix_cons).mpr ⟨rfl, ih hrest⟩

/-- A receiver that is stuck recovers exactly if the queue without the recognizers of the
answered requests is an initial part of the queue. -/
theorem recovers_iff_drop_initial (sign : CharSign) (r : GrammarReceiver) (discarded : List DukMessage)
    (unanswered : List ReplyRecognizer) (h : Stuck sign r discarded unanswered) :
    r.Recovers sign unanswered ↔
      r.recognizerQueue.drop (replies discarded).length <+: r.recognizerQueue := by
  obtain ⟨calls, hrec⟩ := h.answers
  rw [← queue_of_receiveAll hrec]
  exact ⟨prefix_of_deliversAll, deliversAll_of_prefix sign _⟩

/-- A Status notification with a program counter above 16383, in front of the reply to a
request. -/
def longFunctionReceiver : GrammarReceiver :=
  ⟨dukDebugSendStatus 1 (some ⟨[0x61], [0x66], 1, 16384⟩),
    dukDebugSendStatus 1 (some ⟨[0x61], [0x66], 1, 16384⟩), [.replyAddBreakpoint, .reply]⟩

theorem stuck_longFunctionReceiver :
    Stuck .signed longFunctionReceiver [.status 1 (some ⟨[0x61], [0x66], 1, 16384⟩)]
      [.replyAddBreakpoint, .reply] :=
  ⟨rfl, List.cons_ne_nil _ _, rfl, _, rfl⟩

theorem recovers_longFunctionReceiver :
    longFunctionReceiver.Recovers .signed [.replyAddBreakpoint, .reply] :=
  (recovers_iff_drop_initial _ _ _ _ stuck_longFunctionReceiver).mpr (by decide)

def errorReceiver : GrammarReceiver :=
  ⟨noSpaceForBreakpoint.bytes, noSpaceForBreakpoint.bytes, [.replyAddBreakpoint, .reply]⟩

/-- The reply to the Pause request meets the recognizer of the AddBreakpoint request and
stays in the buffer. -/
theorem not_recovers_errorReceiver :
    Stuck .signed errorReceiver [noSpaceForBreakpoint] [.reply] ∧
      ¬ errorReceiver.Recovers .signed [.reply] ∧
      (errorReceiver.clearLeftover.put .signed [rep, eom]).2.savedData = [rep, eom] := by
  refine ⟨⟨by decide, List.cons_ne_nil _ _, by decide, _, rfl⟩, fun h => ?_, by decide⟩
  obtain ⟨_, hsaved⟩ := h [.reply .empty] [] [] (by decide) (by decide)
  exact absurd hsaved (by decide)

theorem replies_le_of_receiveAll {messages : List DukMessage} {queue queue' : List ReplyRecognizer}
    {calls : List Callback} (h : receiveAll messages queue = some (calls, queue')) :
    (replies messages).length ≤ queue.length := by
  have hmore := queue_of_receiveAll
    (receiveAll_queue_append h (List.replicate (replies messages).length .reply))
  have hlength := congrArg List.length hmore
  rw [queue_of_receiveAll h] at hlength
  simp only [List.length_append, List.length_drop, List.length_replicate] at hlength
  omega

/-- Whatever requests are made after `clearLeftover`, their answers and those to the unanswered
ones are delivered, exactly if none of the discarded messages was an answer. -/
theorem recovers_later_iff (sign : CharSign) (r : GrammarReceiver) (discarded : List DukMessage)
    (unanswered : List ReplyRecognizer) (h : Stuck sign r discarded unanswered) :
    (∀ more, DeliversAll sign r.totalSavedData (r.recognizerQueue ++ more) (unanswered ++ more)) ↔
      replies discarded = [] := by
  obtain ⟨calls, hrec⟩ := h.answers
  have hle := replies_le_of_receiveAll hrec
  obtain rfl := queue_of_receiveAll hrec
  constructor
  · intro hall
    by_contra hne
    have hpos := List.length_pos_iff.mpr hne
    set n := (replies discarded).length
    have hlt : r.recognizerQueue.length - n < r.recognizerQueue.length := by omega
    -- The recognizer of the next request is not the one that the queue has in its place.
    obtain ⟨k, hk⟩ : ∃ k, k ≠ r.recognizerQueue.get ⟨_, hlt⟩ := by
      cases r.recognizerQueue.get ⟨_, hlt⟩
      · exact ⟨.replyAddBreakpoint, nofun⟩
      all_goals exact ⟨.reply, nofun⟩
    obtain ⟨rest, hrest⟩ := prefix_of_deliversAll (hall [k])
    have hdrop : (r.recognizerQueue.drop n).length = r.recognizerQueue.length - n := List.length_drop
    have hplace := congrArg (fun queue => queue[r.recognizerQueue.length - n]?) hrest
    simp only [List.append_assoc, List.getElem?_append_left hlt,
      List.getElem?_append_right hdrop.le, hdrop, Nat.sub_self, List.singleton_append,
      List.getElem?_cons_zero, List.getElem?_eq_getElem hlt] at hplace
    exact hk (Option.some.inj hplace)
  · intro hnil more
    rw [hnil, List.length_nil, List.drop_zero]
    exact deliversAll_of_prefix sign _ List.prefix_rfl

end GrammarReceiver

end Debugger

end UnifyFramework
