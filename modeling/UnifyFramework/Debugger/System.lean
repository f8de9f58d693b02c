import Mathlib.Data.List.Induction
import UnifyFramework.Debugger.Client
import UnifyFramework.Debugger.Received
import UnifyFramework.Transition.Run
import UnifyFramework.Transition.Tickets

/-!
# The debugger with its clients and Duktape

Threads of type `τ` call the request methods of one `DukDebugger`, section by section.
Duktape reads the output buffer in pieces, answers the requests in the order of their
frames once it has read them up to the EOM, with a reply or an error, sends
notifications, and its bytes arrive in fragments.
Besides the program's own data the state keeps histories: what was pushed on the two
queues and by which thread, which frames were appended, and how `onAddBreakpoint` and
`RemoveBreakpoint` changed `breakpointMap`.

`InTurn` singles out the steps in which a frame is appended by the thread whose
recognizer, and whose place, is the oldest one without a frame. The lemmas at the end
say what the receivers do with the answers to a sequence of requests.
-/

namespace UnifyFramework

namespace Debugger

open Duktape Transition

/-- The answers in a sequence of messages, `none` for an error. -/
def replies (messages : List DukMessage) : List (Option DukReply) :=
  messages.filterMap fun
    | .reply value => some (some value)
    | .error _ _ => some none
    | _ => none

def IsNotification : DukMessage → Bool
  | .status _ _ | .throw _ _ _ _ => true
  | .reply _ | .error _ _ => false

/-- What `onAddBreakpoint` should store for the requests and the answers to them: the
index with the place of the request. -/
def answeredPlaces : List Request → List (Option DukReply) → List (Int × Option Place)
  | request :: requests, some (.index idx) :: values =>
      (idx.toInt, request.place) :: answeredPlaces requests values
  | _ :: requests, _ :: values => answeredPlaces requests values
  | _, _ => []

/-- What `onAddBreakpoint` stores in a sequence of receiver calls: the identifier with
the front of the pending list, if there is one. -/
def storedPlaces : DukDebugger → List Callback → List (Int × Option Place)
  | _, [] => []
  | d, .replyAddBreakpointReceiver replyInt :: calls =>
      (replyInt.value, d.breakpointPendingList.head?) ::
        storedPlaces (d.onAddBreakpoint replyInt) calls
  | d, c :: calls => storedPlaces (d.call c) calls

/-- A change of `breakpointMap`: `onAddBreakpoint` has stored an identifier with the front of
the pending list, if there was one, or `RemoveBreakpoint` has taken an identifier out. -/
inductive MapChange
  | stored (id : Int) (place : Option Place)
  | removed (id : Int)
  deriving DecidableEq

def MapChange.apply (map : Std.ExtTreeMap Int Place) : MapChange → Std.ExtTreeMap Int Place
  | .stored id place => place.elim map (map.insert id)
  | .removed id => map.erase id

def MapChange.stored? : MapChange → Option (Int × Option Place)
  | .stored id place => some (id, place)
  | .removed _ => none

/-- What the first section of a method takes out of `breakpointMap`. -/
def DukDebugger.removals (d : DukDebugger) : Method → List MapChange
  | .removeBreakpoint filename line => (d.findBreakpoint (filename, line)).toList.map .removed
  | _ => []

/-- The request a thread has created and not yet sent. -/
def CallState.request? : CallState → Option Request
  | .created request => some request
  | _ => none

/-- The place a thread has put on the pending list and not yet sent. -/
def CallState.place? : CallState → Option Place
  | .pended place => some place
  | .created request => request.place
  | _ => none

structure System (τ : Type) where
  debugger : DukDebugger
  threads : τ → CallState
  /-- What Duktape has read. -/
  consumed : Bytes
  /-- What Duktape has written. -/
  written : List DukMessage
  pended : List (τ × Place)
  pushed : List (τ × Request)
  appended : List Request
  calls : List Callback
  changes : List MapChange

inductive SystemEvent (τ : Type)
  | start (t : τ) (method : Method)
  | advance (t : τ)
  | read (length : ℕ)
  | answer (value : DukReply)
  | fail (code : Int32) (msg : Bytes)
  | notify (m : DukMessage)
  | put (data : Bytes)

namespace System

variable {τ : Type}

def init : System τ := ⟨DukDebugger.init, fun _ => .idle, [], [], [], [], [], [], []⟩

def processed (s : System τ) : List DukMessage :=
  delivered (s.debugger.grammarReceiver.totalSavedData.length -
    s.debugger.grammarReceiver.savedData.length) s.written

/-- What `onAddBreakpoint` has stored. -/
def stored (s : System τ) : List (Int × Option Place) := s.changes.filterMap MapChange.stored?

/-- The oldest request without an answer, once Duktape has read its frame up to the EOM. The
handlers write the answer before the EOM is skipped. -/
def unanswered (s : System τ) : Option Request :=
  if ((s.appended.take ((replies s.written).length + 1)).map Request.frame).flatten.length ≤
      s.consumed.length + 1 then s.appended[(replies s.written).length]?
  else none

/-- A thread has run a section, which has made the changes of `breakpointMap`. -/
def move [DecidableEq τ] (s : System τ) (t : τ) (next : DukDebugger × CallState)
    (changes : List MapChange) : System τ :=
  { s with
    debugger := next.1
    threads := Function.update s.threads t next.2
    pended := s.pended ++
      match next.2 with
      | .pended place => [(t, place)]
      | _ => []
    pushed := s.pushed ++
      match next.2 with
      | .created request => [(t, request)]
      | _ => []
    appended := s.appended ++ (s.threads t).request?.toList
    changes := s.changes ++ changes }

def step [DecidableEq τ] (sign : CharSign) (s : System τ) : SystemEvent τ → Option (System τ)
  | .start t method =>
      if s.threads t = .idle then
        some (s.move t (s.debugger.startCall method) (s.debugger.removals method))
      else none
  | .advance t =>
      if s.threads t = .idle then none
      else some (s.move t (s.debugger.continueCall (s.threads t)) [])
  | .read length =>
      if 0 < length ∧ s.debugger.outputBuffer ≠ [] then
        some { s with
          debugger := (s.debugger.innerSendData length).2
          consumed := s.consumed ++ (s.debugger.innerSendData length).1 }
      else none
  | .answer value =>
      match s.unanswered with
      | none => none
      | some request =>
          if (replyCalls value request.recognizer).isSome then
            some { s with written := s.written ++ [.reply value] }
          else none
  | .fail code msg =>
      if s.unanswered.isSome then some { s with written := s.written ++ [.error code msg] }
      else none
  | .notify m => if IsNotification m then some { s with written := s.written ++ [m] } else none
  | .put data =>
      if s.debugger.grammarReceiver.totalSavedData ++ data <+: streamBytes s.written then
        some { s with
          debugger := s.debugger.dukTransDvalueWrite sign data
          calls := s.calls ++ (s.debugger.grammarReceiver.put sign data).1
          changes := s.changes ++
            (storedPlaces s.debugger (s.debugger.grammarReceiver.put sign data).1).map
              fun entry => .stored entry.1 entry.2 }
      else none

/-- The thread that appends a frame is the one whose recognizer is the oldest without a
frame, and for AddBreakpoint also the one whose place is the oldest without a frame. -/
def InTurn (s : System τ) : SystemEvent τ → Prop
  | .advance t =>
      ∀ request ∈ (s.threads t).request?, Turn s.pushed s.appended t ∧
        (request.place.isSome → Turn s.pended (s.appended.filterMap Request.place) t)
  | _ => True

instance decidableInTurn [DecidableEq τ] (s : System τ) : (e : SystemEvent τ) → Decidable (s.InTurn e)
  | .advance t =>
      inferInstanceAs (Decidable (∀ request ∈ (s.threads t).request?, Turn s.pushed s.appended t ∧
        (request.place.isSome → Turn s.pended (s.appended.filterMap Request.place) t)))
  | .start _ _ | .read _ | .answer _ | .fail _ _ | .notify _ | .put _ =>
      inferInstanceAs (Decidable True)

end System

theorem replies_append (a b : List DukMessage) : replies (a ++ b) = replies a ++ replies b :=
  List.filterMap_append

theorem queue_of_receiveAll {messages : List DukMessage} {queue queue' : List ReplyRecognizer}
    {calls : List Callback} (h : receiveAll messages queue = some (calls, queue')) :
    queue' = queue.drop (replies messages).length := by
  induction messages generalizing queue calls with
  | nil =>
      cases h
      rfl
  | cons m messages ih =>
      obtain ⟨first, rest, hfirst, hrest, heq⟩ := receiveAll_cons_eq_some_iff.mp h
      cases heq
      have hqueue := ih hrest
      cases m with
      | status paused activation =>
          cases hfirst
          exact hqueue
      | throw fatal msg fileName line =>
          cases hfirst
          exact hqueue
      | reply value =>
          cases queue with
          | nil => cases hfirst
          | cons k queue =>
              obtain ⟨_, _, heq⟩ := Option.map_eq_some_iff.mp hfirst
              cases heq
              exact hqueue
      | error code msg =>
          cases queue with
          | nil => cases hfirst
          | cons k queue =>
              cases hfirst
              exact hqueue

/-- Recognizers that no answer reaches play no part. -/
theorem receiveAll_of_append {messages : List DukMessage} {queue more queue' : List ReplyRecognizer}
    {calls : List Callback} (h : receiveAll messages (queue ++ more) = some (calls, queue'))
    (hlen : (replies messages).length ≤ queue.length) :
    ∃ rest, receiveAll messages queue = some (calls, rest) := by
  induction messages generalizing queue calls with
  | nil =>
      cases h
      exact ⟨queue, rfl⟩
  | cons m messages ih =>
      obtain ⟨first, rest, hfirst, hrest, heq⟩ := receiveAll_cons_eq_some_iff.mp h
      cases heq
      -- what the first message does to the shorter queue
      have hshort : ∃ queue₁, receive m queue = some (first.1, queue₁) ∧
          first.2 = queue₁ ++ more ∧ (replies messages).length ≤ queue₁.length := by
        cases m with
        | status paused activation =>
            cases hfirst
            exact ⟨queue, rfl, rfl, hlen⟩
        | throw fatal msg fileName line =>
            cases hfirst
            exact ⟨queue, rfl, rfl, hlen⟩
        | reply value =>
            cases queue with
            | nil => exact absurd hlen (Nat.not_succ_le_zero _)
            | cons k queue =>
                obtain ⟨calls, hcalls, heq⟩ := Option.map_eq_some_iff.mp hfirst
                cases heq
                refine ⟨queue, ?_, rfl, Nat.le_of_succ_le_succ hlen⟩
                rw [receive, hcalls, Option.map_some]
        | error code msg =>
            cases queue with
            | nil => exact absurd hlen (Nat.not_succ_le_zero _)
            | cons k queue =>
                cases hfirst
                exact ⟨queue, rfl, rfl, Nat.le_of_succ_le_succ hlen⟩
      obtain ⟨queue₁, hfirst', hqueue, hlen'⟩ := hshort
      rw [hqueue] at hrest
      obtain ⟨rest', hrest'⟩ := ih hrest hlen'
      exact ⟨rest', receiveAll_cons_eq_some_iff.mpr ⟨_, _, hfirst', hrest', rfl⟩⟩

theorem receive_notification {m : DukMessage} (h : IsNotification m = true)
    (queue : List ReplyRecognizer) : ∃ calls, receive m queue = some (calls, queue) := by
  cases m with
  | status paused activation => exact ⟨_, rfl⟩
  | throw fatal msg fileName line => exact ⟨_, rfl⟩
  | reply value => cases h
  | error code msg => cases h

theorem Request.place_eq_none {request : Request}
    (h : request.recognizer ≠ .replyAddBreakpoint) : request.place = none := by
  rw [← Option.not_isSome_iff_eq_none, request.place_isSome]
  exact h

theorem Request.exists_place {request : Request}
    (h : request.recognizer = .replyAddBreakpoint) : ∃ place, request.place = some place :=
  Option.isSome_iff_exists.mp (request.place_isSome.mpr h)

/-- The receivers leave everything but the breakpoints and `firstPause` alone. -/
theorem DukDebugger.foldl_call (calls : List Callback) (d : DukDebugger) :
    (calls.foldl DukDebugger.call d).grammarReceiver = d.grammarReceiver ∧
      (calls.foldl DukDebugger.call d).outputBuffer = d.outputBuffer := by
  induction calls generalizing d with
  | nil => exact ⟨rfl, rfl⟩
  | cons c calls ih =>
      rw [List.foldl_cons, (ih _).1, (ih _).2]
      cases c with
      | replyAddBreakpointReceiver replyInt =>
          simp only [call, onAddBreakpoint]
          split
          · exact ⟨rfl, rfl⟩
          · exact ⟨rfl, rfl⟩
      | _ => exact ⟨rfl, rfl⟩

/-- `storedPlaces` is what the calls put into `breakpointMap`. -/
theorem DukDebugger.breakpointMap_foldl_call (calls : List Callback) (d : DukDebugger) :
    (calls.foldl DukDebugger.call d).breakpointMap =
      (storedPlaces d calls).foldl (fun map entry => entry.2.elim map (map.insert entry.1))
        d.breakpointMap := by
  induction calls generalizing d with
  | nil => rfl
  | cons c calls ih =>
      rw [List.foldl_cons, ih]
      cases c with
      | replyAddBreakpointReceiver replyInt =>
          rw [storedPlaces, List.foldl_cons, call, onAddBreakpoint]
          split
          · next hnil => rw [hnil]; rfl
          · next place rest hcons => rw [hcons]; rfl
      | _ => rfl

/-- The receiver plays no part in what is stored. -/
theorem storedPlaces_receiver (d : DukDebugger) (r : GrammarReceiver) (calls : List Callback) :
    storedPlaces { d with grammarReceiver := r } calls = storedPlaces d calls := by
  induction calls generalizing d with
  | nil => rfl
  | cons c calls ih =>
      cases c with
      | replyAddBreakpointReceiver replyInt =>
          have hcall : DukDebugger.onAddBreakpoint { d with grammarReceiver := r } replyInt =
              { d.onAddBreakpoint replyInt with grammarReceiver := r } := by
            obtain ⟨receiver, map, pending, buffer, firstPause⟩ := d
            cases pending <;> rfl
          rw [storedPlaces, storedPlaces, hcall, ih]
      | statusNotificationReceiver status => exact ih { d with firstPause := true }
      | _ => exact ih d

/-- `findBreakpoint` finds what `takeBreakpoint` takes out. -/
theorem DukDebugger.breakpointMap_startCall (d : DukDebugger) (method : Method) :
    (d.startCall method).1.breakpointMap =
      (d.removals method).foldl MapChange.apply d.breakpointMap := by
  cases method with
  | addBreakpoint filename line =>
      simp only [startCall, pendBreakpoint]
      split_ifs with hsome
      · rfl
      · rfl
  | removeBreakpoint filename line =>
      have htake : (d.takeBreakpoint (filename, line)).2.breakpointMap =
          (d.removals (.removeBreakpoint filename line)).foldl MapChange.apply d.breakpointMap := by
        rw [takeBreakpoint, removals]
        cases d.findBreakpoint (filename, line) with
        | none => rfl
        | some id => rfl
      simp only [startCall]
      split_ifs with hid
      · exact htake
      · exact htake
  | _ => rfl

theorem MapChange.filterMap_stored (entries : List (Int × Option Place)) :
    (entries.map fun entry => MapChange.stored entry.1 entry.2).filterMap MapChange.stored? =
      entries := by
  rw [List.filterMap_map]
  exact List.filterMap_some

theorem DukDebugger.filterMap_removals (d : DukDebugger) (method : Method) :
    (d.removals method).filterMap MapChange.stored? = [] := by
  cases method with
  | removeBreakpoint filename line =>
      rw [removals]
      cases d.findBreakpoint (filename, line) with
      | none => rfl
      | some id => rfl
  | _ => rfl

theorem MapChange.mem_of_getElem? {changes : List MapChange} {id : Int} {place : Place}
    (h : (changes.foldl MapChange.apply ∅)[id]? = some place) :
    (id, some place) ∈ changes.filterMap MapChange.stored? := by
  induction changes using List.reverseRecOn with
  | nil => simp at h
  | append_singleton changes change ih =>
      rw [List.foldl_append, List.foldl_cons, List.foldl_nil] at h
      rw [List.filterMap_append, List.mem_append]
      cases change with
      | removed id' =>
          rw [apply, Std.ExtTreeMap.getElem?_erase] at h
          split at h
          · cases h
          · exact Or.inl (ih h)
      | stored id' place' =>
          cases place' with
          | none => exact Or.inl (ih h)
          | some place' =>
              rw [apply, Option.elim_some, Std.ExtTreeMap.getElem?_insert] at h
              split at h
              · next heq =>
                  cases h
                  rw [compare_eq_iff_eq] at heq
                  rw [heq]
                  exact Or.inr List.mem_cons_self
              · exact Or.inl (ih h)

/-- A reply is the index of a breakpoint, or its receiver does nothing. -/
theorem replyCalls_cases {value : DukReply} {k : ReplyRecognizer} {calls : List Callback}
    (h : replyCalls value k = some calls) :
    (∃ idx, value = .index idx ∧ k = .replyAddBreakpoint ∧
      calls = [.replyAddBreakpointReceiver ⟨idx.toInt⟩]) ∨
    ((∀ idx, value ≠ .index idx) ∧ k ≠ .replyAddBreakpoint ∧
      ∀ d rest, storedPlaces d (calls ++ rest) = storedPlaces d rest ∧
        (calls ++ rest).foldl DukDebugger.call d = rest.foldl DukDebugger.call d) := by
  cases value with
  | empty =>
      cases k with
      | reply =>
          cases h
          exact Or.inr ⟨by simp, by simp, fun _ _ => ⟨rfl, rfl⟩⟩
      | replyRemoveBreakpoint =>
          cases h
          exact Or.inr ⟨by simp, by simp, fun _ _ => ⟨rfl, rfl⟩⟩
      | replyAddBreakpoint => cases h
      | replyNameValueArray => cases h
  | index idx =>
      cases k with
      | replyAddBreakpoint =>
          cases h
          exact Or.inl ⟨idx, rfl, rfl, rfl⟩
      | reply => cases h
      | replyRemoveBreakpoint => cases h
      | replyNameValueArray => cases h
  | locals vars =>
      cases k with
      | replyNameValueArray =>
          cases h
          exact Or.inr ⟨by simp, by simp, fun _ _ => ⟨rfl, rfl⟩⟩
      | reply => cases h
      | replyRemoveBreakpoint => cases h
      | replyAddBreakpoint => cases h

theorem answeredPlaces_of_ne {request : Request} {requests : List Request} {value : DukReply}
    {values : List (Option DukReply)} (h : ∀ idx, value ≠ .index idx) :
    answeredPlaces (request :: requests) (some value :: values) =
      answeredPlaces requests values := by
  cases value with
  | index idx => exact absurd rfl (h idx)
  | empty => rfl
  | locals vars => rfl

theorem answeredPlaces_append {requests : List Request} {values : List (Option DukReply)}
    (h : values.length ≤ requests.length) (more : List Request) :
    answeredPlaces (requests ++ more) values = answeredPlaces requests values := by
  induction requests generalizing values with
  | nil =>
      have hnil : values = [] := List.length_eq_zero_iff.mp (Nat.le_zero.mp h)
      rw [hnil]
      cases more with
      | nil => rfl
      | cons request more => rfl
  | cons request requests ih =>
      cases values with
      | nil => rfl
      | cons value values =>
          have hrest := ih (Nat.le_of_succ_le_succ h)
          rcases value with _ | _ | idx | vars
          · exact hrest
          · exact hrest
          · rw [List.cons_append, answeredPlaces, answeredPlaces, hrest]
          · exact hrest

theorem answeredPlaces_append_right (requests : List Request) (a b : List (Option DukReply)) :
    answeredPlaces requests (a ++ b) =
      answeredPlaces requests a ++ answeredPlaces (requests.drop a.length) b := by
  induction a generalizing requests with
  | nil =>
      cases requests with
      | nil => rfl
      | cons request requests => rfl
  | cons value a ih =>
      cases requests with
      | nil => simp [answeredPlaces]
      | cons request requests =>
          rcases value with _ | _ | idx | vars
          · exact ih requests
          · exact ih requests
          · rw [List.cons_append, answeredPlaces, answeredPlaces, ih]
            rfl
          · exact ih requests

/-- The replies `messages` to the first of the requests. If the places of the requests are
at the front of the pending list, then every index is stored with the place of the
request it answers, and the places of the answered requests leave the list. -/
theorem stored_of_receiveAll {messages : List DukMessage} (hsupp : ∀ m ∈ messages, m.Supported)
    {requests : List Request} {more queue' : List ReplyRecognizer} {calls : List Callback}
    (hrec : receiveAll messages (requests.map Request.recognizer ++ more) = some (calls, queue'))
    (hlen : (replies messages).length ≤ requests.length) {d : DukDebugger}
    (hplaces : requests.filterMap Request.place <+: d.breakpointPendingList) :
    storedPlaces d calls = answeredPlaces requests (replies messages) ∧
      (∀ entry ∈ storedPlaces d calls, entry.2.isSome) ∧
      (calls.foldl DukDebugger.call d).breakpointPendingList = d.breakpointPendingList.drop
        ((requests.take (replies messages).length).filterMap Request.place).length := by
  induction messages generalizing requests calls d with
  | nil =>
      cases hrec
      refine ⟨?_, by simp [storedPlaces], rfl⟩
      cases requests with
      | nil => rfl
      | cons request requests => rfl
  | cons m messages ih =>
      obtain ⟨first, rest, hfirst, hrest, heq⟩ := receiveAll_cons_eq_some_iff.mp hrec
      cases heq
      have hsupp' := (List.forall_mem_cons.mp hsupp).2
      cases m with
      | status paused activation =>
          cases hfirst
          exact ih hsupp' hrest hlen hplaces
      | throw fatal msg fileName line =>
          cases hfirst
          exact ih hsupp' hrest hlen hplaces
      | error code msg => cases hsupp _ List.mem_cons_self
      | reply value =>
          cases requests with
          | nil => exact absurd hlen (Nat.not_succ_le_zero _)
          | cons request requests =>
              obtain ⟨c, hc, heq⟩ := Option.map_eq_some_iff.mp hfirst
              cases heq
              have hlen' : (replies messages).length ≤ requests.length := Nat.le_of_succ_le_succ hlen
              change storedPlaces d (c ++ rest.1) = answeredPlaces (request :: requests)
                  (some value :: replies messages) ∧
                (∀ entry ∈ storedPlaces d (c ++ rest.1), entry.2.isSome) ∧
                ((c ++ rest.1).foldl DukDebugger.call d).breakpointPendingList =
                  d.breakpointPendingList.drop ((request :: requests.take
                    (replies messages).length).filterMap Request.place).length
              rcases replyCalls_cases hc with ⟨idx, rfl, hk, rfl⟩ | ⟨hvalue, hk, hcalls⟩
              · obtain ⟨place, hplace⟩ := request.exists_place hk
                rw [List.filterMap_cons_some hplace] at hplaces ⊢
                obtain ⟨others, hpending⟩ := hplaces
                rw [List.cons_append] at hpending
                have hadd : (d.onAddBreakpoint ⟨idx.toInt⟩).breakpointPendingList =
                    requests.filterMap Request.place ++ others := by
                  simp only [DukDebugger.onAddBreakpoint, ← hpending]
                obtain ⟨hstored, hsome, hrest'⟩ := ih hsupp' hrest hlen'
                  (d := d.onAddBreakpoint ⟨idx.toInt⟩) (hadd ▸ List.prefix_append _ _)
                rw [List.singleton_append, storedPlaces, ← hpending, List.head?_cons]
                refine ⟨?_, List.forall_mem_cons.mpr ⟨rfl, hsome⟩, ?_⟩
                · rw [hstored, answeredPlaces, hplace]
                · rw [List.length_cons, List.drop_succ_cons, ← hadd]
                  exact hrest'
              · rw [List.filterMap_cons_none (request.place_eq_none hk)] at hplaces ⊢
                rw [(hcalls d rest.1).1, (hcalls d rest.1).2, answeredPlaces_of_ne hvalue]
                exact ih hsupp' hrest hlen' hplaces

end Debugger

end UnifyFramework
