import UnifyFramework.Debugger.System

/-!
# Requests and replies stay matched

Nothing holds across the sections of a request method, so with several clients the
frames can be appended in another order than the recognizers, or the places, were
pushed. In the runs where every frame is appended in turn the three orders agree, and
then every reply meets the recognizer of its request and every breakpoint is stored
with the place of its request. A single client is always in turn.
-/

namespace UnifyFramework

namespace Debugger

open Duktape Transition

namespace System

variable {τ : Type}

def kinds (s : System τ) : List ReplyRecognizer := s.pushed.map fun x => x.2.recognizer

/-- The number of AddBreakpoint requests among the first `n` requests. -/
def placesAnswered (s : System τ) (n : ℕ) : ℕ :=
  ((s.appended.take n).filterMap Request.place).length

/-- The state after the messages `accepted` have been processed, with the messages
`waiting` still under way. -/
structure Matched (s : System τ) (accepted waiting : List DukMessage) : Prop where
  requests : Tickets s.pushed s.appended fun t => (s.threads t).request?
  places : Tickets s.pended (s.appended.filterMap Request.place) fun t => (s.threads t).place?
  pipe : s.consumed ++ s.debugger.outputBuffer = (s.appended.map Request.frame).flatten
  written : s.written = accepted ++ waiting
  answered : (replies s.written).length ≤ s.appended.length
  received : Received s.debugger.grammarReceiver s.kinds s.calls accepted waiting
  pending : s.debugger.breakpointPendingList =
    (s.pended.map Prod.snd).drop (s.placesAnswered (replies accepted).length)
  stored : s.stored = answeredPlaces s.appended (replies accepted)
  found : ∀ entry ∈ s.stored, entry.2.isSome
  map : s.debugger.breakpointMap = s.changes.foldl MapChange.apply ∅

theorem matched_init : Matched (init : System τ) [] [] :=
  ⟨Tickets.init, Tickets.init, rfl, rfl, Nat.le_refl _,
    Received.init, rfl, rfl, by simp [init, stored], rfl⟩

theorem stored_move [DecidableEq τ] (s : System τ) (t : τ) (next : DukDebugger × CallState)
    {changes : List MapChange} (h : changes.filterMap MapChange.stored? = []) :
    (s.move t next changes).stored = s.stored := by
  simp only [stored, move, List.filterMap_append, h, List.append_nil]

theorem stored_put (sign : CharSign) (s : System τ) (data : Bytes) (d : DukDebugger)
    (calls : List Callback) :
    stored { s with
      debugger := d
      calls := calls
      changes := s.changes ++
        (storedPlaces s.debugger (s.debugger.grammarReceiver.put sign data).1).map
          fun entry => .stored entry.1 entry.2 } =
      s.stored ++ storedPlaces s.debugger (s.debugger.grammarReceiver.put sign data).1 := by
  rw [stored, List.filterMap_append, MapChange.filterMap_stored]
  rfl

namespace Matched

variable {s : System τ} {accepted waiting : List DukMessage}

theorem accepted_le (h : Matched s accepted waiting) :
    (replies accepted).length ≤ s.appended.length := by
  have hle := h.answered
  rw [h.written, replies_append, List.length_append] at hle
  omega

theorem kinds_of_appended (h : Matched s accepted waiting) :
    s.appended.map Request.recognizer <+: s.kinds := by
  have hmap := h.requests.served_of_drawn.map Request.recognizer
  rwa [List.map_map] at hmap

theorem placesAnswered_le (h : Matched s accepted waiting) (n : ℕ) :
    s.placesAnswered n ≤ s.pended.length := by
  have hprefix := h.places.served_of_drawn.length_le
  rw [List.length_map] at hprefix
  refine Nat.le_trans ?_ hprefix
  exact ((List.take_sublist n s.appended).filterMap Request.place).length_le

section Threads

variable [DecidableEq τ]

theorem update_state {α : Type} (f : CallState → Option α) (threads : τ → CallState) (t : τ)
    (c : CallState) :
    (fun t' => f (Function.update threads t c t')) =
      Function.update (fun t' => f (threads t')) t (f c) := by
  funext t'
  exact Function.apply_update (fun _ => f) threads t c t'

theorem update_state_of_eq {α : Type} (f : CallState → Option α) {threads : τ → CallState} {t : τ}
    (c : CallState) (h : f c = f (threads t)) :
    (fun t' => f (Function.update threads t c t')) = fun t' => f (threads t') := by
  rw [update_state, h]
  exact Function.update_eq_self t _

/-- A section that appends no frame. -/
theorem section_of_none (h : Matched s accepted waiting) {t : τ} {next : DukDebugger × CallState}
    {changes : List MapChange} (hnone : (s.threads t).request? = none)
    (hrequests : Tickets (s.move t next changes).pushed s.appended fun t' =>
      ((s.move t next changes).threads t').request?)
    (hplaces : Tickets (s.move t next changes).pended (s.appended.filterMap Request.place)
      fun t' => ((s.move t next changes).threads t').place?)
    (houtput : next.1.outputBuffer = s.debugger.outputBuffer)
    (hreceived : Received next.1.grammarReceiver (s.move t next changes).kinds s.calls accepted
      waiting)
    (hpending : next.1.breakpointPendingList = ((s.move t next changes).pended.map Prod.snd).drop
      (s.placesAnswered (replies accepted).length))
    (hchanges : changes.filterMap MapChange.stored? = [])
    (hmap : next.1.breakpointMap = changes.foldl MapChange.apply s.debugger.breakpointMap) :
    Matched (s.move t next changes) accepted waiting := by
  have happended : (s.move t next changes).appended = s.appended := by
    rw [move, hnone, Option.toList_none, List.append_nil]
  have hstored := stored_move s t next hchanges
  refine ⟨?_, ?_, ?_, h.written, ?_, hreceived, ?_, ?_, ?_, ?_⟩
  · rw [happended]
    exact hrequests
  · rw [happended]
    exact hplaces
  · rw [happended, ← h.pipe, ← houtput]
    rfl
  · rw [happended]
    exact h.answered
  · rw [placesAnswered, happended]
    exact hpending
  · rw [happended, hstored]
    exact h.stored
  · rw [hstored]
    exact h.found
  · rw [move, List.foldl_append, ← h.map]
    exact hmap

/-- A `Create*Request` function, as the first section of a method or behind the section
that found the place or the identifier. -/
theorem create (h : Matched s accepted waiting) {t : τ} {request : Request}
    (hnone : (s.threads t).request? = none) (hplace : (s.threads t).place? = request.place) :
    Matched (s.move t (s.debugger.create request) []) accepted waiting := by
  apply h.section_of_none hnone
  · simp only [move, DukDebugger.create, update_state]
    exact h.requests.draw hnone request
  · simp only [move, DukDebugger.create, List.append_nil]
    rw [update_state_of_eq CallState.place? (.created request) hplace.symm]
    exact h.places
  · rfl
  · have hkinds : (s.move t (s.debugger.create request) []).kinds =
        s.kinds ++ [request.recognizer] := List.map_append
    rw [hkinds]
    exact h.received.request request.recognizer
  · simp only [move, DukDebugger.create, List.append_nil]
    exact h.pending
  · rfl
  · rfl

/-- The first section of `AddBreakpoint`. -/
theorem pend (h : Matched s accepted waiting) {t : τ} (hidle : s.threads t = .idle) {place : Place}
    {d : DukDebugger} (hd : s.debugger.pendBreakpoint place = some d) :
    Matched (s.move t (d, .pended place) []) accepted waiting := by
  rw [DukDebugger.pendBreakpoint] at hd
  split_ifs at hd
  cases hd
  apply h.section_of_none (by rw [hidle]; rfl)
  · simp only [move, List.append_nil]
    rw [update_state_of_eq CallState.request? (.pended place) (by rw [hidle]; rfl)]
    exact h.requests
  · simp only [move, update_state]
    exact h.places.draw (by simp only [hidle]; rfl) place
  · rfl
  · simp only [move, kinds, List.append_nil]
    exact h.received
  · simp only [move]
    rw [List.map_append, List.drop_append_of_le_length, h.pending]
    · rfl
    · rw [List.length_map]
      exact h.placesAnswered_le _
  · rfl
  · rfl

/-- A first section that ends the method, or that of `RemoveBreakpoint`, which only takes
an entry out of `breakpointMap`. -/
theorem section_of_idle (h : Matched s accepted waiting) {t : τ} (hidle : s.threads t = .idle)
    {d : DukDebugger} (hreceiver : d.grammarReceiver = s.debugger.grammarReceiver)
    (hpending : d.breakpointPendingList = s.debugger.breakpointPendingList)
    (houtput : d.outputBuffer = s.debugger.outputBuffer) {c : CallState}
    (hc : c = .idle ∨ ∃ id, c = .taken id) {changes : List MapChange}
    (hchanges : changes.filterMap MapChange.stored? = [])
    (hmap : d.breakpointMap = changes.foldl MapChange.apply s.debugger.breakpointMap) :
    Matched (s.move t (d, c) changes) accepted waiting := by
  have hsame : ∀ {α : Type} (f : CallState → Option α), f .idle = none → (∀ id, f (.taken id) = none) →
      f c = f (s.threads t) := by
    intro α f hf hf'
    rw [hidle]
    rcases hc with rfl | ⟨id, rfl⟩
    · rfl
    · rw [hf, hf']
  have hpended : (s.move t (d, c) changes).pended = s.pended := by
    rcases hc with rfl | ⟨id, rfl⟩ <;> exact List.append_nil _
  have hpushed : (s.move t (d, c) changes).pushed = s.pushed := by
    rcases hc with rfl | ⟨id, rfl⟩ <;> exact List.append_nil _
  apply h.section_of_none (by rw [hidle]; rfl)
  · rw [hpushed]
    simp only [move]
    rw [update_state_of_eq CallState.request? c (hsame _ rfl fun _ => rfl)]
    exact h.requests
  · rw [hpended]
    simp only [move]
    rw [update_state_of_eq CallState.place? c (hsame _ rfl fun _ => rfl)]
    exact h.places
  · exact houtput
  · rw [kinds, hpushed, hreceiver]
    exact h.received
  · rw [hpended, hpending]
    exact h.pending
  · exact hchanges
  · exact hmap

theorem start (h : Matched s accepted waiting) {t : τ} (hidle : s.threads t = .idle)
    (method : Method) :
    Matched (s.move t (s.debugger.startCall method) (s.debugger.removals method)) accepted
      waiting := by
  have hcommand : ∀ request : Request, request.place = none →
      Matched (s.move t (s.debugger.create request) []) accepted waiting :=
    fun request hplace => h.create (by rw [hidle]; rfl) (by rw [hidle, hplace]; rfl)
  cases method with
  | pause => exact hcommand _ rfl
  | resume => exact hcommand _ rfl
  | stepInto => exact hcommand _ rfl
  | stepOver => exact hcommand _ rfl
  | stepOut => exact hcommand _ rfl
  | getLocals => exact hcommand _ rfl
  | addBreakpoint filename line =>
      cases hd : s.debugger.pendBreakpoint (filename, line) with
      | none =>
          simp only [DukDebugger.startCall, hd]
          exact h.section_of_idle hidle rfl rfl rfl (Or.inl rfl) rfl rfl
      | some d =>
          simp only [DukDebugger.startCall, hd]
          exact h.pend hidle hd
  | removeBreakpoint filename line =>
      have htake : (s.debugger.takeBreakpoint (filename, line)).2.grammarReceiver =
            s.debugger.grammarReceiver ∧
          (s.debugger.takeBreakpoint (filename, line)).2.breakpointPendingList =
            s.debugger.breakpointPendingList ∧
          (s.debugger.takeBreakpoint (filename, line)).2.outputBuffer =
            s.debugger.outputBuffer := by
        rw [DukDebugger.takeBreakpoint]
        split
        · exact ⟨rfl, rfl, rfl⟩
        · exact ⟨rfl, rfl, rfl⟩
      have hchanges := s.debugger.filterMap_removals (.removeBreakpoint filename line)
      have hmap := s.debugger.breakpointMap_startCall (.removeBreakpoint filename line)
      simp only [DukDebugger.startCall] at hmap ⊢
      split_ifs at hmap ⊢ with hid
      · exact h.section_of_idle hidle htake.1 htake.2.1 htake.2.2 (Or.inr ⟨_, rfl⟩) hchanges hmap
      · exact h.section_of_idle hidle htake.1 htake.2.1 htake.2.2 (Or.inl rfl) hchanges hmap

/-- `RefillDataToSend` by the thread that is in turn. -/
theorem append (h : Matched s accepted waiting) {t : τ} {request : Request}
    (hcreated : s.threads t = .created request) (hturn : Turn s.pushed s.appended t)
    (hplace : request.place.isSome → Turn s.pended (s.appended.filterMap Request.place) t) :
    Matched (s.move t (s.debugger.refillDataToSend request.frame, .idle) []) accepted waiting := by
  rw [DukDebugger.refillDataToSend_eq]
  have hheld : (s.threads t).request? = some request := by
    rw [hcreated]
    rfl
  have hle := h.accepted_le
  have hstored := stored_move s t ({ s.debugger with
    outputBuffer := s.debugger.outputBuffer ++ request.frame }, .idle) List.filterMap_nil
  refine ⟨?_, ?_, ?_, h.written, ?_, ?_, ?_, ?_, ?_, ?_⟩
  · simp only [move, hheld, List.append_nil, update_state]
    exact h.requests.serve hheld hturn
  · simp only [move, hheld, List.append_nil, update_state, Option.toList_some, List.filterMap_append]
    cases hp : request.place with
    | none =>
        have hnone : (s.threads t).place? = none := by
          rw [hcreated]
          exact hp
        rw [List.filterMap_cons_none hp, List.filterMap_nil, List.append_nil,
          show CallState.place? .idle = (s.threads t).place? from hnone.symm,
          Function.update_eq_self]
        exact h.places
    | some place =>
        rw [List.filterMap_cons_some hp, List.filterMap_nil]
        exact h.places.serve (by rw [hcreated]; exact hp) (hplace (by rw [hp]; rfl))
  · simp only [move, hheld, Option.toList_some, List.map_append, List.flatten_append, ← h.pipe,
      List.append_assoc]
    simp
  · simp only [move, hheld, Option.toList_some, List.length_append, List.length_singleton]
    exact Nat.le_succ_of_le h.answered
  · simp only [move, kinds, List.append_nil]
    exact h.received
  · simp only [move, hheld, Option.toList_some, placesAnswered, List.append_nil]
    rw [List.take_append_of_le_length hle]
    exact h.pending
  · rw [hstored]
    simp only [move, hheld, Option.toList_some]
    rw [answeredPlaces_append hle]
    exact h.stored
  · rw [hstored]
    exact h.found
  · simp only [move, List.append_nil]
    exact h.map

theorem advance (h : Matched s accepted waiting) {t : τ} (hbusy : s.threads t ≠ .idle)
    (hturn : s.InTurn (.advance t)) :
    Matched (s.move t (s.debugger.continueCall (s.threads t)) []) accepted waiting := by
  cases hc : s.threads t with
  | idle => exact absurd hc hbusy
  | pended place => exact h.create (by rw [hc]; rfl) (by rw [hc]; rfl)
  | taken id => exact h.create (by rw [hc]; rfl) (by rw [hc]; rfl)
  | created request =>
      obtain ⟨hpushed, hpended⟩ := hturn request (by rw [hc]; rfl)
      exact h.append hc hpushed hpended

end Threads

theorem read (h : Matched s accepted waiting) (length : ℕ) :
    Matched { s with
      debugger := (s.debugger.innerSendData length).2
      consumed := s.consumed ++ (s.debugger.innerSendData length).1 } accepted waiting := by
  refine ⟨h.requests, h.places, ?_, h.written, h.answered, ?_, ?_, h.stored, h.found, ?_⟩
  · rw [List.append_assoc, DukDebugger.innerSendData_append]
    exact h.pipe
  · rw [DukDebugger.innerSendData_eq]
    exact h.received
  · rw [DukDebugger.innerSendData_eq]
    exact h.pending
  · rw [DukDebugger.innerSendData_eq]
    exact h.map

/-- The recognizers that are left when everything written has been received. -/
theorem receiveAll_written (h : Matched s accepted waiting) :
    ∃ calls, receiveAll waiting s.debugger.grammarReceiver.recognizerQueue =
      some (calls, s.kinds.drop (replies s.written).length) := by
  obtain ⟨⟨calls, queue⟩, hwaiting⟩ := Option.isSome_iff_exists.mp h.received.answers
  have hall : receiveAll s.written s.kinds = some (s.calls ++ calls, queue) := by
    rw [h.written, receiveAll_append, h.received.received, Option.bind_some, hwaiting,
      Option.map_some]
  rw [queue_of_receiveAll hall] at hwaiting
  exact ⟨calls, hwaiting⟩

/-- Duktape writes a message that the recognizers left after the others can receive. -/
theorem write (h : Matched s accepted waiting) {m : DukMessage}
    (hm : (receive m (s.kinds.drop (replies s.written).length)).isSome)
    (hlen : (replies (s.written ++ [m])).length ≤ s.appended.length) :
    Matched { s with written := s.written ++ [m] } accepted (waiting ++ [m]) := by
  obtain ⟨calls, hcalls⟩ := h.receiveAll_written
  obtain ⟨x, hx⟩ := Option.isSome_iff_exists.mp hm
  refine ⟨h.requests, h.places, h.pipe, ?_, hlen, h.received.write ?_, h.pending, h.stored,
    h.found, h.map⟩
  · rw [h.written, List.append_assoc]
  · rw [receiveAll_append, hcalls, Option.bind_some, Option.isSome_map]
    simp only [receiveAll, hx]
    rfl

/-- Behind the answered requests, the recognizers are those of the frames. -/
theorem drop_kinds (h : Matched s accepted waiting) (n : ℕ) (hn : n ≤ s.appended.length) :
    ∃ more, s.kinds.drop n = (s.appended.drop n).map Request.recognizer ++ more := by
  obtain ⟨more, hmore⟩ := h.kinds_of_appended
  refine ⟨more, ?_⟩
  rw [← hmore, List.drop_append_of_le_length, List.map_drop]
  rwa [List.length_map]

/-- The recognizer that an answer to the oldest request without one will meet. -/
theorem drop_kinds_of_unanswered (h : Matched s accepted waiting) {request : Request}
    (hrequest : s.unanswered = some request) :
    (replies s.written).length < s.appended.length ∧
      ∃ more, s.kinds.drop (replies s.written).length = request.recognizer :: more := by
  rw [unanswered] at hrequest
  split_ifs at hrequest
  obtain ⟨hlt, hget⟩ := List.getElem?_eq_some_iff.mp hrequest
  obtain ⟨more, hmore⟩ := h.drop_kinds _ h.answered
  rw [List.drop_eq_getElem_cons hlt, hget, List.map_cons, List.cons_append] at hmore
  exact ⟨hlt, _, hmore⟩

theorem answer (h : Matched s accepted waiting) {request : Request}
    (hrequest : s.unanswered = some request) {value : DukReply}
    (hvalue : (replyCalls value request.recognizer).isSome) :
    Matched { s with written := s.written ++ [.reply value] } accepted
      (waiting ++ [.reply value]) := by
  obtain ⟨hlt, more, hmore⟩ := h.drop_kinds_of_unanswered hrequest
  apply h.write
  · rw [hmore, receive, Option.isSome_map]
    exact hvalue
  · rw [replies_append, List.length_append]
    exact hlt

theorem fail (h : Matched s accepted waiting) {request : Request}
    (hrequest : s.unanswered = some request) (code : Int32) (msg : Bytes) :
    Matched { s with written := s.written ++ [.error code msg] } accepted
      (waiting ++ [.error code msg]) := by
  obtain ⟨hlt, more, hmore⟩ := h.drop_kinds_of_unanswered hrequest
  apply h.write
  · rw [hmore]
    rfl
  · rw [replies_append, List.length_append]
    exact hlt

theorem notify (h : Matched s accepted waiting) {m : DukMessage} (hm : IsNotification m = true) :
    Matched { s with written := s.written ++ [m] } accepted (waiting ++ [m]) := by
  obtain ⟨calls, hcalls⟩ := receive_notification hm (s.kinds.drop (replies s.written).length)
  apply h.write
  · rw [hcalls]
    rfl
  · have hnone : replies [m] = [] := by
      cases m with
      | status paused activation => rfl
      | throw fatal msg fileName line => rfl
      | reply value => cases hm
      | error code msg => cases hm
    rw [replies_append, hnone, List.append_nil]
    exact h.answered

theorem placesAnswered_add (s : System τ) (n m : ℕ) :
    s.placesAnswered (n + m) =
      s.placesAnswered n + (((s.appended.drop n).take m).filterMap Request.place).length := by
  rw [placesAnswered, placesAnswered, List.take_add, List.filterMap_append, List.length_append]

/-- The places of the requests that are not answered yet are at the front of the pending
list. -/
theorem places_prefix_pending (h : Matched s accepted waiting) :
    (s.appended.drop (replies accepted).length).filterMap Request.place <+:
      s.debugger.breakpointPendingList := by
  obtain ⟨others, hall⟩ := h.places.served_of_drawn
  rw [← List.take_append_drop (replies accepted).length s.appended, List.filterMap_append,
    List.append_assoc] at hall
  refine ⟨others, ?_⟩
  rw [h.pending, ← hall, placesAnswered, List.drop_left]

theorem put (h : Matched s accepted waiting) (sign : CharSign) {data : Bytes}
    (hdata : s.debugger.grammarReceiver.totalSavedData ++ data <+: streamBytes s.written) :
    ∃ accepted' waiting', Matched { s with
      debugger := s.debugger.dukTransDvalueWrite sign data
      calls := s.calls ++ (s.debugger.grammarReceiver.put sign data).1
      changes := s.changes ++
        (storedPlaces s.debugger (s.debugger.grammarReceiver.put sign data).1).map
          fun entry => .stored entry.1 entry.2 } accepted' waiting' := by
  rw [h.written, streamBytes_append, h.received.bytes, List.append_assoc,
    List.prefix_append_right_inj] at hdata
  obtain ⟨more, waiting', hsplit, hmore, hrec⟩ := h.received.put sign hdata
  have hwritten : s.written = accepted ++ more ++ waiting' := by
    rw [h.written, hsplit, List.append_assoc]
  have hsupp : ∀ m ∈ more, m.Supported :=
    fun m hm => hrec.supported m (List.mem_append_right accepted hm)
  obtain ⟨others, hothers⟩ := h.drop_kinds _ h.accepted_le
  rw [queue_of_receiveAll h.received.received, hothers] at hmore
  have hlen : (replies more).length ≤ (s.appended.drop (replies accepted).length).length := by
    have hle := h.answered
    rw [hwritten, replies_append, replies_append, List.length_append, List.length_append] at hle
    rw [List.length_drop]
    omega
  obtain ⟨hstored, hsome, _⟩ := stored_of_receiveAll hsupp hmore hlen h.places_prefix_pending
  obtain ⟨_, _, hpending⟩ := stored_of_receiveAll hsupp hmore hlen
    (d := { s.debugger with grammarReceiver := (s.debugger.grammarReceiver.put sign data).2 })
    h.places_prefix_pending
  refine ⟨accepted ++ more, waiting', h.requests, h.places, ?_, hwritten, h.answered,
    ?_, ?_, ?_, ?_, ?_⟩
  · rw [DukDebugger.dukTransDvalueWrite, (DukDebugger.foldl_call _ _).2]
    exact h.pipe
  · rw [DukDebugger.dukTransDvalueWrite, (DukDebugger.foldl_call _ _).1]
    exact hrec
  · rw [DukDebugger.dukTransDvalueWrite, hpending, replies_append, List.length_append, h.pending,
      List.drop_drop]
    rw [← placesAnswered_add]
    rfl
  · rw [stored_put, hstored, h.stored, replies_append, answeredPlaces_append_right]
  · rw [stored_put]
    exact List.forall_mem_append.mpr ⟨h.found, hsome⟩
  · rw [List.foldl_append, ← h.map, List.foldl_map, DukDebugger.dukTransDvalueWrite,
      DukDebugger.breakpointMap_foldl_call, storedPlaces_receiver]
    rfl

end Matched

theorem matched_step [DecidableEq τ] (sign : CharSign) (s : System τ) (e : SystemEvent τ)
    (s' : System τ) (h : ∃ accepted waiting, s.Matched accepted waiting) (hturn : s.InTurn e)
    (hstep : step sign s e = some s') : ∃ accepted waiting, s'.Matched accepted waiting := by
  obtain ⟨accepted, waiting, h⟩ := h
  cases e with
  | start t method =>
      rw [step] at hstep
      split_ifs at hstep with hidle
      cases hstep
      exact ⟨accepted, waiting, h.start hidle method⟩
  | advance t =>
      rw [step] at hstep
      split_ifs at hstep with hidle
      cases hstep
      exact ⟨accepted, waiting, h.advance hidle hturn⟩
  | read length =>
      rw [step] at hstep
      split_ifs at hstep
      cases hstep
      exact ⟨accepted, waiting, h.read length⟩
  | answer value =>
      rw [step] at hstep
      cases hrequest : s.unanswered with
      | none =>
          rw [hrequest] at hstep
          cases hstep
      | some request =>
          rw [hrequest] at hstep
          simp only at hstep
          split_ifs at hstep with hvalue
          cases hstep
          exact ⟨accepted, _, h.answer hrequest hvalue⟩
  | fail code msg =>
      rw [step] at hstep
      split_ifs at hstep with hsome
      cases hstep
      obtain ⟨request, hrequest⟩ := Option.isSome_iff_exists.mp hsome
      exact ⟨accepted, _, h.fail hrequest code msg⟩
  | notify m =>
      rw [step] at hstep
      split_ifs at hstep with hm
      cases hstep
      exact ⟨accepted, _, h.notify hm⟩
  | put data =>
      rw [step] at hstep
      split_ifs at hstep with hdata
      cases hstep
      exact h.put sign hdata

/-- The recognizers and the places are in the order of the frames, every answer has been
received by the recognizer of its request, and `breakpointMap` is what the changes have made
of it: every index has been stored with the place of the request it answers. -/
structure OrdersAgree (s : System τ) : Prop where
  frames : s.consumed ++ s.debugger.outputBuffer = (s.appended.map Request.frame).flatten
  recognizers : s.appended.map Request.recognizer <+: s.kinds
  places : s.appended.filterMap Request.place <+: s.pended.map Prod.snd
  received : ∃ rest,
    receiveAll s.processed (s.appended.map Request.recognizer) = some (s.calls, rest)
  stored : s.stored = answeredPlaces s.appended (replies s.processed)
  map : s.debugger.breakpointMap = s.changes.foldl MapChange.apply ∅
  origin : ∀ (id : Int) place, s.debugger.breakpointMap[id]? = some place →
    (id, some place) ∈ answeredPlaces s.appended (replies s.processed)

theorem Matched.processed_eq {s : System τ} {accepted waiting : List DukMessage}
    (h : Matched s accepted waiting) : s.processed = accepted := by
  have hnone : delivered 0 waiting = [] := by
    cases waiting with
    | nil => rfl
    | cons m waiting =>
        have hpos := List.length_pos_of_ne_nil (bytes_ne_nil m)
        rw [delivered, if_neg (Nat.not_le.mpr hpos)]
  rw [processed, h.received.bytes, List.length_append, Nat.add_sub_cancel, h.written]
  simpa [hnone] using delivered_append accepted waiting 0

theorem Matched.origin {s : System τ} {accepted waiting : List DukMessage}
    (h : Matched s accepted waiting) {id : Int} {place : Place}
    (hid : s.debugger.breakpointMap[id]? = some place) :
    (id, some place) ∈ answeredPlaces s.appended (replies s.processed) := by
  rw [h.map] at hid
  rw [h.processed_eq, ← h.stored]
  exact MapChange.mem_of_getElem? hid

theorem Matched.ordersAgree {s : System τ} {accepted waiting : List DukMessage}
    (h : Matched s accepted waiting) : s.OrdersAgree := by
  refine ⟨h.pipe, h.kinds_of_appended, h.places.served_of_drawn, ?_, ?_, h.map,
    fun _ _ => h.origin⟩
  · obtain ⟨more, hmore⟩ := h.kinds_of_appended
    have hreceived := h.received.received
    rw [← hmore] at hreceived
    rw [h.processed_eq]
    apply receiveAll_of_append hreceived
    rw [List.length_map]
    exact h.accepted_le
  · rw [h.processed_eq]
    exact h.stored

/-- In every run in which the frames are appended in turn, the orders agree. -/
theorem orders_agree_of_inTurn [DecidableEq τ] (sign : CharSign) (es : List (SystemEvent τ))
    (s : System τ) (hturn : Along (step sign) InTurn init es)
    (hrun : run (step sign) init es = some s) : s.OrdersAgree := by
  obtain ⟨accepted, waiting, h⟩ :=
    run_invariant_along (matched_step sign) ⟨[], [], matched_init⟩ hturn hrun
  exact h.ordersAgree

/-- While one client is adding a breakpoint, another one pauses the program. Duktape answers
both requests before it reads their EOMs. -/
def addAndPause : List (SystemEvent Bool) :=
  [.start false (.addBreakpoint [0x61] 1), .start true .pause, .advance true, .advance false,
    .advance false, .read 2, .answer .empty, .read 6, .answer (.index 0), .put [0x02, 0x00, 0x02],
    .put [0x80, 0x00], .read 1]

theorem orders_agree_addAndPause :
    ∃ s, run (step .signed) init addAndPause = some s ∧ s.OrdersAgree ∧
      s.stored = [(0, some ([0x61], 1))] ∧ s.debugger.breakpointMap.toList = [(0, ([0x61], 1))] :=
  ⟨_, rfl, orders_agree_of_inTurn .signed addAndPause _ (by decide) rfl, by decide, by decide⟩

/-- Both clients add a breakpoint. The second one overtakes the first one twice: with its
first frame, and then with the frame of a pause request whose recognizer is younger. -/
def overtaking : List (SystemEvent Bool) :=
  [.start false (.addBreakpoint [0x61] 1), .start true (.addBreakpoint [0x62] 2), .advance true,
    .advance true, .advance false, .start true .pause, .advance true, .advance false, .read 100,
    .answer (.index 0), .put [0x02, 0x80, 0x00]]

/-- The recognizers and the places are both in another order than the frames, and the
index of the breakpoint of the second client is stored with the place of the first. -/
theorem not_ordersAgree_overtaking :
    ∃ s, run (step .signed) init overtaking = some s ∧ ¬ s.OrdersAgree ∧
      ¬ s.appended.map Request.recognizer <+: s.kinds ∧
      ¬ s.appended.filterMap Request.place <+: s.pended.map Prod.snd ∧
      s.debugger.breakpointMap.toList = [(0, ([0x61], 1))] ∧
      answeredPlaces s.appended (replies s.processed) = [(0, some ([0x62], 2))] :=
  ⟨_, rfl, fun h => absurd h.recognizers (by decide), by decide, by decide, by decide, by decide⟩

/-- The recognizers and the places of the requests that are not answered yet are queued in
the order of the requests, and `breakpointMap` is what the changes have made of it: every
index has been stored with the place of the request it answers, which was never missing. -/
structure Paired (s : System τ) : Prop where
  queue : s.debugger.grammarReceiver.recognizerQueue = s.kinds.drop (replies s.processed).length
  pending : s.debugger.breakpointPendingList =
    (s.pended.map Prod.snd).drop (s.placesAnswered (replies s.processed).length)
  stored : s.stored = answeredPlaces s.appended (replies s.processed)
  found : ∀ entry ∈ s.stored, entry.2.isSome
  map : s.debugger.breakpointMap = s.changes.foldl MapChange.apply ∅
  origin : ∀ (id : Int) place, s.debugger.breakpointMap[id]? = some place →
    (id, some place) ∈ answeredPlaces s.appended (replies s.processed)

theorem Matched.paired {s : System τ} {accepted waiting : List DukMessage}
    (h : Matched s accepted waiting) : s.Paired := by
  refine ⟨?_, ?_, ?_, h.found, h.map, fun _ _ => h.origin⟩
  · rw [h.processed_eq]
    exact queue_of_receiveAll h.received.received
  · rw [h.processed_eq]
    exact h.pending
  · rw [h.processed_eq]
    exact h.stored

theorem Matched.inTurn_of_subsingleton [Subsingleton τ] {s : System τ}
    {accepted waiting : List DukMessage} (h : Matched s accepted waiting) (e : SystemEvent τ) :
    s.InTurn e := by
  cases e with
  | advance t =>
      intro request hrequest
      have hheld : (s.threads t).request? = some request := hrequest
      refine ⟨h.requests.turn_of_subsingleton hheld, fun hplace => ?_⟩
      obtain ⟨place, hplace⟩ := Option.isSome_iff_exists.mp hplace
      have hpended : (s.threads t).place? = some place := by
        cases hc : s.threads t with
        | created request' =>
            rw [hc] at hheld
            cases hheld
            exact hplace
        | _ =>
            rw [hc] at hheld
            cases hheld
      exact h.places.turn_of_subsingleton hpended
  | _ => trivial

theorem matched_step_of_subsingleton [DecidableEq τ] [Subsingleton τ] (sign : CharSign)
    (s : System τ) (e : SystemEvent τ) (s' : System τ)
    (h : ∃ accepted waiting, s.Matched accepted waiting) (hstep : step sign s e = some s') :
    ∃ accepted waiting, s'.Matched accepted waiting := by
  obtain ⟨accepted, waiting, hs⟩ := h
  exact matched_step sign s e s' ⟨accepted, waiting, hs⟩ (hs.inTurn_of_subsingleton e) hstep

/-- In every state of a run with a single client, the queues are those of the requests
that are not answered yet. -/
theorem paired_of_single_client (sign : CharSign) (es : List (SystemEvent Unit)) (s : System Unit)
    (hrun : run (step sign) init es = some s) : s.Paired := by
  obtain ⟨accepted, waiting, h⟩ :=
    run_invariant (matched_step_of_subsingleton sign) ⟨[], [], matched_init⟩ hrun
  exact h.paired

/-- The client adds a second breakpoint while the reply to the first one is arriving, and
removes the first one while Duktape reads the request of the second. -/
def addTwice : List (SystemEvent Unit) :=
  [.start () (.addBreakpoint [0x61] 1), .advance (), .advance (), .read 5, .answer (.index 0),
    .put [0x02], .start () (.addBreakpoint [0x62] 2), .put [0x80, 0x00], .advance (), .advance (),
    .read 6, .start () (.removeBreakpoint [0x61] 1), .answer (.index 1), .advance (),
    .put [0x02, 0x81, 0x00]]

theorem paired_addTwice :
    ∃ s, run (step .signed) init addTwice = some s ∧ s.Paired ∧
      s.debugger.grammarReceiver.recognizerQueue = [.replyRemoveBreakpoint] ∧
      s.changes = [.stored 0 (some ([0x61], 1)), .removed 0, .stored 1 (some ([0x62], 2))] ∧
      s.debugger.breakpointMap.toList = [(1, ([0x62], 2))] :=
  ⟨_, rfl, paired_of_single_client .signed addTwice _ rfl, by decide, by decide, by decide⟩

end System

end Debugger

end UnifyFramework
