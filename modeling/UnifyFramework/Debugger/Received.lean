import UnifyFramework.Debugger.Decoding

/-!
# How far the receiver has come in a stream

Of the messages Duktape has written, the receiver has received some and holds a
part of the others in `savedData`. `Received` describes such a state: the received
messages have had their effect, the bytes behind them are still there, and the next
message is either incomplete or outside the supported set. Pushing a recognizer,
another message and another fragment all lead to such a state again.
-/

namespace UnifyFramework

namespace Debugger

open Parsing Parsing.Parser Duktape Transition

@[simp] theorem streamBytes_nil : streamBytes [] = [] := rfl

@[simp] theorem streamBytes_cons (m : DukMessage) (messages : List DukMessage) :
    streamBytes (m :: messages) = m.bytes ++ streamBytes messages := rfl

@[simp] theorem streamBytes_append (a b : List DukMessage) :
    streamBytes (a ++ b) = streamBytes a ++ streamBytes b := by
  rw [streamBytes, List.map_append, List.flatten_append]
  rfl

theorem bytes_ne_nil (m : DukMessage) : m.bytes ≠ [] := by
  cases m with
  | status paused activation => exact List.cons_ne_nil _ _
  | throw fatal msg fileName line => exact List.cons_ne_nil _ _
  | reply value =>
      obtain ⟨u, hu⟩ := dukDebugWriteReply_cons value
      rw [DukMessage.bytes, hu]
      exact List.cons_ne_nil _ _
  | error code msg => exact List.cons_ne_nil _ _

theorem receiveAll_append (a b : List DukMessage) (queue : List ReplyRecognizer) :
    receiveAll (a ++ b) queue =
      (receiveAll a queue).bind fun x => (receiveAll b x.2).map fun y => (x.1 ++ y.1, y.2) := by
  induction a generalizing queue with
  | nil => simp [receiveAll]
  | cons m a ih =>
      simp only [List.cons_append, receiveAll, ih]
      cases receive m queue with
      | none => rfl
      | some first =>
          cases ha : receiveAll a first.2 with
          | none => simp [ha]
          | some x =>
              cases hb : receiveAll b x.2 with
              | none => simp [ha, hb]
              | some y => simp [ha, hb]

theorem receive_append {m : DukMessage} {queue queue' : List ReplyRecognizer}
    {calls : List Callback} (h : receive m queue = some (calls, queue'))
    (more : List ReplyRecognizer) : receive m (queue ++ more) = some (calls, queue' ++ more) := by
  cases m with
  | status paused activation =>
      cases h
      rfl
  | throw fatal msg fileName line =>
      cases h
      rfl
  | reply value =>
      cases queue with
      | nil => cases h
      | cons k queue =>
          obtain ⟨_, hcalls, heq⟩ := Option.map_eq_some_iff.mp h
          cases heq
          simp only [List.cons_append, receive, hcalls, Option.map_some]
  | error code msg =>
      cases queue with
      | nil => cases h
      | cons k queue =>
          cases h
          rfl

/-- Requests that are made later do not change what the earlier messages do. -/
theorem receiveAll_queue_append {messages : List DukMessage} {queue queue' : List ReplyRecognizer}
    {calls : List Callback} (h : receiveAll messages queue = some (calls, queue'))
    (more : List ReplyRecognizer) :
    receiveAll messages (queue ++ more) = some (calls, queue' ++ more) := by
  induction messages generalizing queue calls with
  | nil =>
      cases h
      rfl
  | cons m messages ih =>
      obtain ⟨first, others, hfirst, hothers, heq⟩ := receiveAll_cons_eq_some_iff.mp h
      cases heq
      exact receiveAll_cons_eq_some_iff.mpr
        ⟨(first.1, first.2 ++ more), (others.1, others.2 ++ more), receive_append hfirst more,
          ih hothers, rfl⟩

/-- The messages that `n` bytes of a stream hold completely. -/
def delivered : ℕ → List DukMessage → List DukMessage
  | _, [] => []
  | n, m :: messages =>
      if m.bytes.length ≤ n then m :: delivered (n - m.bytes.length) messages else []

theorem delivered_append (accepted waiting : List DukMessage) (n : ℕ) :
    delivered ((streamBytes accepted).length + n) (accepted ++ waiting) =
      accepted ++ delivered n waiting := by
  induction accepted with
  | nil => simp
  | cons m accepted ih =>
      have hle : m.bytes.length ≤ (streamBytes (m :: accepted)).length + n := by
        rw [streamBytes_cons, List.length_append]
        omega
      have hrest : (streamBytes (m :: accepted)).length + n - m.bytes.length =
          (streamBytes accepted).length + n := by
        rw [streamBytes_cons, List.length_append]
        omega
      rw [List.cons_append, delivered, if_pos hle, hrest, ih, List.cons_append]

theorem head?_of_delivered {n : ℕ} {m : DukMessage} {messages rest : List DukMessage}
    (h : delivered n messages = m :: rest) : m ∈ messages.head? ∧ m.bytes.length ≤ n := by
  cases messages with
  | nil => cases h
  | cons m' messages =>
      rw [delivered] at h
      split_ifs at h with hle
      cases h
      exact ⟨rfl, hle⟩

/-- The buffer holds no complete supported message: the first of the waiting messages
is incomplete or no recognizer accepts it. -/
def Blocked (buffer : Bytes) (waiting : List DukMessage) : Prop :=
  ∀ m ∈ waiting.head?, m.Supported → buffer.length < m.bytes.length

/-- The receiver has received the messages `accepted`, with the receiver calls `calls`,
and holds a part of the bytes of the messages `waiting`. -/
structure Received (r : GrammarReceiver) (requests : List ReplyRecognizer)
    (calls : List Callback) (accepted waiting : List DukMessage) : Prop where
  supported : ∀ m ∈ accepted, m.Supported
  received : receiveAll accepted requests = some (calls, r.recognizerQueue)
  answers : (receiveAll waiting r.recognizerQueue).isSome
  bytes : r.totalSavedData = streamBytes accepted ++ r.savedData
  ahead : r.savedData <+: streamBytes waiting
  blocked : Blocked r.savedData waiting

/-- In front of an incomplete or unsupported message the loop stops. -/
theorem round_of_blocked (sign : CharSign) (total : Bytes) {m : DukMessage}
    {messages : List DukMessage} {queue : List ReplyRecognizer} {buffer : Bytes}
    {x : List Callback × List ReplyRecognizer} (hrec : receive m queue = some x)
    (hahead : buffer <+: streamBytes (m :: messages))
    (hblocked : m.Supported → buffer.length < m.bytes.length) :
    GrammarReceiver.round sign ⟨total, buffer, queue⟩ = none := by
  have hm : m.bytes <+: streamBytes (m :: messages) := List.prefix_append _ _
  by_cases hlen : buffer.length < m.bytes.length
  · obtain ⟨v, hv⟩ := List.prefix_of_prefix_length_le hahead hm (Nat.le_of_lt hlen)
    apply GrammarReceiver.round_of_partial sign hrec total buffer hv
    rintro rfl
    rw [List.append_nil] at hv
    rw [hv] at hlen
    exact Nat.lt_irrefl _ hlen
  · obtain ⟨t, rfl⟩ := List.prefix_of_prefix_length_le hm hahead (Nat.le_of_not_lt hlen)
    exact GrammarReceiver.round_of_not_supported sign hrec (fun h => hlen (hblocked h)) total t

/-- The loop on a buffer that holds the beginning of a stream: it receives the complete
supported messages at the front and stops before the first other one. -/
theorem exhausts_stream (sign : CharSign) (total : Bytes) {messages : List DukMessage}
    {queue : List ReplyRecognizer} {buffer : Bytes}
    (hanswers : (receiveAll messages queue).isSome) (hahead : buffer <+: streamBytes messages) :
    ∃ accepted waiting calls queue' rest, messages = accepted ++ waiting ∧
      Received ⟨buffer, rest, queue'⟩ queue calls accepted waiting ∧
      Exhausts (GrammarReceiver.round sign) ⟨total, buffer, queue⟩ calls
        ⟨total, rest, queue'⟩ := by
  induction messages generalizing queue buffer with
  | nil =>
      have hnil : buffer = [] := List.prefix_nil.mp hahead
      subst hnil
      exact ⟨[], [], [], queue, [], rfl,
        ⟨by simp, rfl, rfl, rfl, List.prefix_rfl, by simp [Blocked]⟩,
        Exhausts.stop (GrammarReceiver.round_nil sign total queue)⟩
  | cons m messages ih =>
      obtain ⟨x, hx⟩ := Option.isSome_iff_exists.mp hanswers
      obtain ⟨first, others, hfirst, hothers, _⟩ := receiveAll_cons_eq_some_iff.mp hx
      by_cases hm : m.Supported ∧ m.bytes.length ≤ buffer.length
      · obtain ⟨buffer', rfl⟩ :=
          List.prefix_of_prefix_length_le (List.prefix_append _ _) hahead hm.2
        obtain ⟨accepted, waiting, calls, queue', rest, hsplit, hrec, hrest⟩ :=
          ih (Option.isSome_of_eq_some hothers) ((List.prefix_append_right_inj m.bytes).mp hahead)
        refine ⟨m :: accepted, waiting, first.1 ++ calls, queue', rest, ?_, ?_, ?_⟩
        · rw [hsplit, List.cons_append]
        · refine ⟨List.forall_mem_cons.mpr ⟨hm.1, hrec.supported⟩, ?_, hrec.answers, ?_,
            hrec.ahead, hrec.blocked⟩
          · exact receiveAll_cons_eq_some_iff.mpr ⟨first, _, hfirst, hrec.received, rfl⟩
          · rw [streamBytes_cons, List.append_assoc, ← hrec.bytes]
        · exact Exhausts.more (GrammarReceiver.round_of_supported sign hfirst hm.1 total buffer') hrest
      · have hblocked : m.Supported → buffer.length < m.bytes.length :=
          fun h => Nat.lt_of_not_le fun hle => hm ⟨h, hle⟩
        refine ⟨[], m :: messages, [], queue, buffer, rfl,
          ⟨by simp, rfl, hanswers, rfl, hahead, ?_⟩,
          Exhausts.stop (round_of_blocked sign total hfirst hahead hblocked)⟩
        intro m' hm'
        cases hm'
        exact hblocked

theorem put_message (sign : CharSign) (total : Bytes) {m : DukMessage}
    {queue queue' : List ReplyRecognizer} {calls : List Callback}
    (hrec : receive m queue = some (calls, queue')) (hm : m.Supported) :
    GrammarReceiver.put sign ⟨total, [], queue⟩ m.bytes = (calls, ⟨total ++ m.bytes, [], queue'⟩) := by
  apply GrammarReceiver.put_eq_of_exhausts
  have hround := GrammarReceiver.round_of_supported sign hrec hm (total ++ m.bytes) []
  rw [List.append_nil] at hround
  have hex := Exhausts.more hround
    (Exhausts.stop (GrammarReceiver.round_nil sign (total ++ m.bytes) queue'))
  rwa [List.append_nil] at hex

namespace Received

variable {r : GrammarReceiver} {requests : List ReplyRecognizer} {calls : List Callback}
  {accepted waiting : List DukMessage}

theorem init : Received ⟨[], [], []⟩ [] [] [] [] :=
  ⟨by simp, rfl, rfl, rfl, List.prefix_rfl, by simp [Blocked]⟩

theorem request (h : Received r requests calls accepted waiting) (k : ReplyRecognizer) :
    Received { r with recognizerQueue := r.recognizerQueue ++ [k] } (requests ++ [k]) calls
      accepted waiting := by
  obtain ⟨x, hx⟩ := Option.isSome_iff_exists.mp h.answers
  refine ⟨h.supported, receiveAll_queue_append h.received [k], ?_, h.bytes, h.ahead, h.blocked⟩
  rw [receiveAll_queue_append hx [k]]
  rfl

theorem write (h : Received r requests calls accepted waiting) {m : DukMessage}
    (hm : (receiveAll (waiting ++ [m]) r.recognizerQueue).isSome) :
    Received r requests calls accepted (waiting ++ [m]) := by
  refine ⟨h.supported, h.received, hm, h.bytes, ?_, ?_⟩
  · rw [streamBytes_append]
    exact h.ahead.trans (List.prefix_append _ _)
  · intro m' hm' hsupp
    cases waiting with
    | nil =>
        have hnil : r.savedData = [] := List.prefix_nil.mp h.ahead
        rw [hnil]
        exact List.length_pos_of_ne_nil (bytes_ne_nil m')
    | cons m₀ waiting => exact h.blocked m' hm' hsupp

theorem put (h : Received r requests calls accepted waiting) (sign : CharSign) {data : Bytes}
    (hdata : r.savedData ++ data <+: streamBytes waiting) :
    ∃ more waiting', waiting = more ++ waiting' ∧
      receiveAll more r.recognizerQueue =
        some ((r.put sign data).1, (r.put sign data).2.recognizerQueue) ∧
      Received (r.put sign data).2 requests (calls ++ (r.put sign data).1) (accepted ++ more)
        waiting' := by
  obtain ⟨more, waiting', calls', queue', rest, hsplit, hrec, hex⟩ :=
    exhausts_stream sign (r.totalSavedData ++ data) h.answers hdata
  have hput : r.put sign data = (calls', ⟨r.totalSavedData ++ data, rest, queue'⟩) :=
    GrammarReceiver.put_eq_of_exhausts hex
  rw [hput]
  refine ⟨more, waiting', hsplit, hrec.received, ?_⟩
  refine ⟨?_, ?_, hrec.answers, ?_, hrec.ahead, hrec.blocked⟩
  · exact List.forall_mem_append.mpr ⟨h.supported, hrec.supported⟩
  · rw [receiveAll_append, h.received, Option.bind_some, hrec.received, Option.map_some]
  · have hbuffer : r.savedData ++ data = streamBytes more ++ rest := hrec.bytes
    rw [streamBytes_append, List.append_assoc, ← hbuffer, ← List.append_assoc, ← h.bytes]

end Received

end Debugger

end UnifyFramework
