import UnifyFramework.Debugger.Breakpoints
import UnifyFramework.Debugger.Matching

/-!
# One client and Duktape in dialogue

A single client makes `AddBreakpoint` and `RemoveBreakpoint` calls without waiting for the
replies. Between the sections of its calls Duktape reads a part of the output buffer and
answers the requests it finds there, and the bytes it has written are put in fragments.

Duktape's end is described against the requests that were appended: it has answered the
first of them, its breakpoint table is what their handlers have made of it, and the bytes
it still has to read are the frames of the others. This needs every frame to be one that
Duktape reads back, which is a condition on the breakpoints that are added.
-/

namespace UnifyFramework

namespace Debugger

open Duktape Transition Parsing Parsing.Parser

def Request.decode (request : Request) : Option DukRequest :=
  (readRequest request.frame).map Prod.fst

def emptyTable : BreakpointTable := ⟨[], Nat.zero_le _⟩

/-- The answers to the requests, one after the other, and the table behind them. At a frame
that it cannot read Duktape stops. -/
def serve (table : BreakpointTable) : List Request → List DukMessage × BreakpointTable
  | [] => ([], table)
  | request :: requests =>
      match request.decode with
      | none => ([], table)
      | some q =>
          ((handle [] table q).1 :: (serve (handle [] table q).2 requests).1,
            (serve (handle [] table q).2 requests).2)

inductive Sent : Request → DukRequest → Prop
  | add {filename : Bytes} {line : Int} : SizeEncodable filename.length → IntEncodable line →
      Sent (createAddBreakpointRequest filename line)
        (.addBreak filename (UInt32.ofNat line.toNat))
  | remove {id : Int} : IntEncodable id →
      Sent (createRemoveBreakpointRequest id) (.delBreak (UInt32.ofNat id.toNat))

theorem Sent.reads {request : Request} {q : DukRequest} (h : Sent request q) :
    ∃ u, request.frame = u ++ [eom] ∧ Reads readRequest u q := by
  cases h with
  | add hname hline =>
      refine ⟨_, ?_, reads_addBreakpoint hname hline⟩
      simp [createAddBreakpointRequest]
  | remove hid =>
      refine ⟨_, ?_, reads_removeBreakpoint hid⟩
      simp [createRemoveBreakpointRequest]

theorem Sent.decode {request : Request} {q : DukRequest} (h : Sent request q) :
    request.decode = some q := by
  obtain ⟨u, hframe, hread⟩ := h.reads
  rw [Request.decode, hframe, hread [eom], Option.map_some]

/-- The answer is one that the recognizer of the request receives. -/
theorem Sent.receive_handle {request : Request} {q : DukRequest} (h : Sent request q)
    (table : BreakpointTable) (more : List ReplyRecognizer) :
    (receive (handle [] table q).1 (request.recognizer :: more)).isSome ∧
      (replies [(handle [] table q).1]).length = 1 := by
  cases h with
  | add hname hline =>
      rw [handle]
      split
      · exact ⟨rfl, rfl⟩
      · exact ⟨rfl, rfl⟩
  | remove hid =>
      rw [handle]
      split
      · exact ⟨rfl, rfl⟩
      · exact ⟨rfl, rfl⟩

def AllSent (requests : List Request) : Prop := ∀ request ∈ requests, ∃ q, Sent request q

theorem serve_cons {request : Request} {q : DukRequest} (h : Sent request q)
    (table : BreakpointTable) (requests : List Request) :
    serve table (request :: requests) =
      ((handle [] table q).1 :: (serve (handle [] table q).2 requests).1,
        (serve (handle [] table q).2 requests).2) := by
  simp only [serve, h.decode]

theorem serve_append {a : List Request} (ha : AllSent a) (table : BreakpointTable)
    (b : List Request) :
    serve table (a ++ b) =
      ((serve table a).1 ++ (serve (serve table a).2 b).1, (serve (serve table a).2 b).2) := by
  induction a generalizing table with
  | nil => rfl
  | cons request a ih =>
      obtain ⟨⟨q, hq⟩, ha⟩ := List.forall_mem_cons.mp ha
      rw [List.cons_append, serve_cons hq, serve_cons hq, ih ha]
      rfl

theorem length_serve {requests : List Request} (h : AllSent requests) (table : BreakpointTable) :
    (serve table requests).1.length = requests.length ∧
      (replies (serve table requests).1).length = requests.length := by
  induction requests generalizing table with
  | nil => exact ⟨rfl, rfl⟩
  | cons request requests ih =>
      obtain ⟨⟨q, hq⟩, h⟩ := List.forall_mem_cons.mp h
      obtain ⟨hlen, hreplies⟩ := ih h (handle [] table q).2
      rw [serve_cons hq]
      refine ⟨by simp [hlen], ?_⟩
      rw [← List.singleton_append, replies_append, List.length_append, hreplies,
        (hq.receive_handle table []).2, List.length_cons, Nat.add_comm]

/-- The bytes that Duktape holds, with those that it has not been given yet, are the frames
of the requests, behind the end of a request that it has answered. -/
def Awaits (e : Engine) (rest : Bytes) (requests : List Request) : Prop :=
  e.input ++ rest =
    (if e.skipping then [eom] else []) ++ (requests.map Request.frame).flatten

theorem reads_skip_eom : Reads dukDebugSkipDvalue [eom] true := by
  intro t
  rw [dukDebugSkipDvalue, (reads_dukDebugReadByte eom).bind_append, if_neg (by decide),
    if_neg (by decide), if_neg (by decide), if_pos (by decide)]
  rfl

/-- A round answers the next request or skips the end of the last one. -/
theorem Awaits.round {e e' : Engine} {rest : Bytes} {requests : List Request}
    {answers : List DukMessage} (h : Awaits e rest requests) (hsent : AllSent requests)
    (hround : Engine.round [] e = some (answers, e')) :
    ∃ done requests', requests = done ++ requests' ∧
      (answers, e'.table) = serve e.table done ∧ Awaits e' rest requests' := by
  rw [Awaits] at h
  rw [Engine.round] at hround
  split_ifs at hround with hskip
  · obtain ⟨⟨eomSeen, tail⟩, htail, heq⟩ := Option.map_eq_some_iff.mp hround
    cases heq
    have hwhole := exactFrom_dukDebugSkipDvalue.exact.append htail rest
    rw [h, if_pos hskip, reads_skip_eom] at hwhole
    obtain ⟨rfl, hrest⟩ := Prod.mk.inj (Option.some.inj hwhole)
    exact ⟨[], requests, rfl, rfl, hrest.symm⟩
  · obtain ⟨⟨q', tail⟩, htail, heq⟩ := Option.map_eq_some_iff.mp hround
    cases heq
    have hwhole := exactFrom_readRequest.exact.append htail rest
    rw [h, if_neg hskip, List.nil_append] at hwhole
    cases requests with
    | nil => cases hwhole
    | cons request requests =>
        obtain ⟨⟨q, hq⟩, _⟩ := List.forall_mem_cons.mp hsent
        obtain ⟨u, hframe, hread⟩ := hq.reads
        rw [List.map_cons, List.flatten_cons, hframe, List.append_assoc, hread] at hwhole
        obtain ⟨rfl, hrest⟩ := Prod.mk.inj (Option.some.inj hwhole)
        refine ⟨[request], requests, rfl, ?_, hrest.symm⟩
        rw [serve_cons hq]
        rfl

theorem Awaits.exhausts {e e' : Engine} {rest : Bytes} {requests : List Request}
    {answers : List DukMessage} (h : Awaits e rest requests) (hsent : AllSent requests)
    (hex : Exhausts (Engine.round []) e answers e') :
    ∃ done requests', requests = done ++ requests' ∧
      (answers, e'.table) = serve e.table done ∧ Awaits e' rest requests' := by
  induction hex generalizing requests with
  | stop _ => exact ⟨[], requests, rfl, rfl, h⟩
  | more hround _ ih =>
      obtain ⟨first, others, rfl, hfirst, hawaits⟩ := h.round hsent hround
      obtain ⟨hsentFirst, hsentOthers⟩ := List.forall_mem_append.mp hsent
      obtain ⟨done, requests', rfl, hdone, hawaits'⟩ := ih hawaits hsentOthers
      refine ⟨first ++ done, requests', (List.append_assoc _ _ _).symm, ?_, hawaits'⟩
      rw [serve_append hsentFirst, ← hfirst, ← hdone]

theorem Awaits.process {e : Engine} {data rest : Bytes} {requests : List Request}
    (h : Awaits e (data ++ rest) requests) (hsent : AllSent requests) :
    ∃ done requests', requests = done ++ requests' ∧
      ((e.process [] data).1, (e.process [] data).2.table) = serve e.table done ∧
      Awaits (e.process [] data).2 rest requests' := by
  have hawaits : Awaits { e with input := e.input ++ data } rest requests := by
    rw [Awaits, List.append_assoc]
    exact h
  exact hawaits.exhausts hsent
    (exhausts_exhaust (Engine.length_of_round []) _ _ (Nat.lt_succ_self _))

theorem System.Matched.serve {τ : Type} {s : System τ} {accepted waiting : List DukMessage}
    (h : s.Matched accepted waiting) {done requests : List Request}
    (hdrop : s.appended.drop (replies s.written).length = done ++ requests) (hsent : AllSent done)
    (table : BreakpointTable) :
    System.Matched { s with written := s.written ++ (Debugger.serve table done).1 } accepted
      (waiting ++ (Debugger.serve table done).1) := by
  induction done generalizing s waiting table with
  | nil =>
      have hnil : (Debugger.serve table []).1 = [] := rfl
      rw [hnil, List.append_nil, List.append_nil]
      exact h
  | cons request done ih =>
      obtain ⟨⟨q, hq⟩, hsent⟩ := List.forall_mem_cons.mp hsent
      have hlt : (replies s.written).length < s.appended.length := by
        have hlen := congrArg List.length hdrop
        rw [List.length_drop, List.length_append, List.length_cons] at hlen
        omega
      obtain ⟨more, hmore⟩ := h.drop_kinds _ hlt.le
      rw [hdrop, List.cons_append, List.map_cons, List.cons_append] at hmore
      have hone := (hq.receive_handle table []).2
      have hwrite := h.write (m := (handle [] table q).1)
        (by rw [hmore]; exact (hq.receive_handle table _).1)
        (by rw [replies_append, List.length_append, hone]; exact hlt)
      have hnext : s.appended.drop (replies (s.written ++ [(handle [] table q).1])).length =
          done ++ requests := by
        rw [replies_append, List.length_append, hone, ← List.drop_drop, hdrop]
        rfl
      have hrest := ih hwrite hnext hsent (handle [] table q).2
      rw [serve_cons hq]
      simpa only [List.append_assoc, List.singleton_append] using hrest

def BreakpointCall.method : BreakpointCall → Method
  | .add filename line => .addBreakpoint filename line
  | .remove filename line => .removeBreakpoint filename line

structure Dialogue where
  system : System Unit
  engine : Engine
  history : List BreakpointCall

inductive DialogueEvent
  | call (c : BreakpointCall)
  | advance
  | read (length : ℕ)
  | put (data : Bytes)

namespace Dialogue

def init : Dialogue := ⟨System.init, ⟨emptyTable, false, []⟩, []⟩

/-- Duktape answers what it reads at once; the other steps are those of the system. -/
def step (sign : CharSign) (s : Dialogue) : DialogueEvent → Option Dialogue
  | .call c =>
      (System.step sign s.system (.start () c.method)).map fun system =>
        { s with system := system, history := s.history ++ [c] }
  | .advance =>
      (System.step sign s.system (.advance ())).map fun system => { s with system := system }
  | .read length =>
      (System.step sign s.system (.read length)).map fun system =>
        let answered := s.engine.process [] (s.system.debugger.innerSendData length).1
        { s with
          system := { system with written := system.written ++ answered.1 }
          engine := answered.2 }
  | .put data =>
      (System.step sign s.system (.put data)).map fun system => { s with system := system }

def Encodes (s : Dialogue) : DialogueEvent → Prop
  | .call (.add filename line) =>
      s.system.debugger.findBreakpoint (filename, line) = none →
        SizeEncodable filename.length ∧ IntEncodable line
  | _ => True

instance decidableEncodes (s : Dialogue) : (e : DialogueEvent) → Decidable (s.Encodes e)
  | .call (.add _ _) => inferInstanceAs (Decidable (_ → _))
  | .call (.remove _ _) | .advance | .read _ | .put _ => inferInstanceAs (Decidable True)

def coming : CallState → Option Request
  | .idle => none
  | .pended place => some (createAddBreakpointRequest place.1 place.2)
  | .taken id => some (createRemoveBreakpointRequest id)
  | .created request => some request

def issued (s : Dialogue) : List Request :=
  s.system.appended ++ (coming (s.system.threads ())).toList

inductive Started (d : DukDebugger) : BreakpointCall → DukDebugger × CallState → Prop
  | known {filename : Bytes} {line id : Int} : d.findBreakpoint (filename, line) = some id →
      Started d (.add filename line) (d, .idle)
  | pend {filename : Bytes} {line : Int} : d.findBreakpoint (filename, line) = none →
      Started d (.add filename line)
        ({ d with breakpointPendingList := d.breakpointPendingList ++ [(filename, line)] },
          .pended (filename, line))
  | unknown {filename : Bytes} {line : Int} : d.findBreakpoint (filename, line) = none →
      Started d (.remove filename line) (d, .idle)
  | take {filename : Bytes} {line id : Int} : d.findBreakpoint (filename, line) = some id →
      id ≠ -1 → Started d (.remove filename line)
        ({ d with breakpointMap := d.breakpointMap.erase id }, .taken id)
  | lost {filename : Bytes} {line : Int} : d.findBreakpoint (filename, line) = some (-1) →
      Started d (.remove filename line)
        ({ d with breakpointMap := d.breakpointMap.erase (-1) }, .idle)

theorem started (d : DukDebugger) (c : BreakpointCall) : Started d c (d.startCall c.method) := by
  cases c with
  | add filename line =>
      cases hfind : d.findBreakpoint (filename, line) with
      | none =>
          simp only [BreakpointCall.method, DukDebugger.startCall, DukDebugger.pendBreakpoint, hfind,
            Option.isSome_none, Bool.false_eq_true, if_false]
          exact Started.pend hfind
      | some id =>
          simp only [BreakpointCall.method, DukDebugger.startCall, DukDebugger.pendBreakpoint, hfind,
            Option.isSome_some, if_true]
          exact Started.known hfind
  | remove filename line =>
      cases hfind : d.findBreakpoint (filename, line) with
      | none =>
          simp only [BreakpointCall.method, DukDebugger.startCall, DukDebugger.takeBreakpoint, hfind,
            ne_eq, not_true_eq_false, if_false]
          exact Started.unknown hfind
      | some id =>
          simp only [BreakpointCall.method, DukDebugger.startCall, DukDebugger.takeBreakpoint, hfind]
          split_ifs with hid
          · exact Started.take hfind hid
          · have hid : id = -1 := not_not.mp hid
            subst hid
            exact Started.lost hfind

theorem Started.outputBuffer {d : DukDebugger} {c : BreakpointCall} {next : DukDebugger × CallState}
    (h : Started d c next) : next.1.outputBuffer = d.outputBuffer := by
  cases h <;> rfl

theorem Started.breakpointMap {d : DukDebugger} {c : BreakpointCall}
    {next : DukDebugger × CallState} (h : Started d c next) {id : Int} {place : Place}
    (hmap : next.1.breakpointMap[id]? = some place) : d.breakpointMap[id]? = some place := by
  have herase : ∀ id' : Int, (d.breakpointMap.erase id')[id]? = some place →
      d.breakpointMap[id]? = some place := by
    intro id' hmap
    rw [Std.ExtTreeMap.getElem?_erase] at hmap
    split at hmap
    · cases hmap
    · exact hmap
  cases h with
  | known _ => exact hmap
  | pend _ => exact hmap
  | unknown _ => exact hmap
  | take _ _ => exact herase _ hmap
  | lost _ => exact herase _ hmap

theorem step_call_eq_some {sign : CharSign} {s s' : Dialogue} {c : BreakpointCall}
    (h : step sign s (.call c) = some s') :
    s.system.threads () = .idle ∧ ∃ next, Started s.system.debugger c next ∧
      s' = ⟨s.system.move () next (s.system.debugger.removals c.method), s.engine,
        s.history ++ [c]⟩ := by
  obtain ⟨system, hsystem, rfl⟩ := Option.map_eq_some_iff.mp h
  rw [System.step] at hsystem
  split_ifs at hsystem with hidle
  cases hsystem
  exact ⟨hidle, _, started _ c, rfl⟩

theorem appended_move {s : Dialogue} (hidle : s.system.threads () = .idle)
    (next : DukDebugger × CallState) (changes : List MapChange) :
    (s.system.move () next changes).appended = s.system.appended := by
  rw [System.move, hidle]
  exact List.append_nil _

theorem issued_of_idle {s : Dialogue} (hidle : s.system.threads () = .idle) :
    s.issued = s.system.appended := by
  rw [issued, hidle]
  exact List.append_nil _

/-- A call changes the requests only by its own. -/
theorem issued_move {s : Dialogue} (hidle : s.system.threads () = .idle)
    (next : DukDebugger × CallState) (changes : List MapChange) (history : List BreakpointCall) :
    issued ⟨s.system.move () next changes, s.engine, history⟩ =
      s.issued ++ (coming next.2).toList := by
  have hthread : (s.system.move () next changes).threads () = next.2 := by
    simp only [System.move, Function.update_self]
  rw [issued_of_idle hidle]
  simp only [issued, appended_move hidle, hthread]

theorem step_advance_eq_some {sign : CharSign} {s s' : Dialogue}
    (h : step sign s .advance = some s') :
    s'.issued = s.issued ∧ s'.engine = s.engine ∧ s'.history = s.history ∧
      s'.system.written = s.system.written ∧
      s'.system.debugger.breakpointMap = s.system.debugger.breakpointMap ∧
      s'.system.debugger.breakpointPendingList = s.system.debugger.breakpointPendingList ∧
      s'.system.pended = s.system.pended ∧ s'.system.stored = s.system.stored ∧
      ∃ more, s'.system.appended = s.system.appended ++ more ∧
        s'.system.debugger.outputBuffer =
          s.system.debugger.outputBuffer ++ (more.map Request.frame).flatten := by
  obtain ⟨system, hsystem, rfl⟩ := Option.map_eq_some_iff.mp h
  rw [System.step] at hsystem
  split_ifs at hsystem with hbusy
  cases hsystem
  cases hc : s.system.threads () with
  | idle => exact absurd hc hbusy
  | pended place =>
      simp [issued, System.move, System.stored, DukDebugger.continueCall, DukDebugger.create,
        coming, hc, CallState.request?, DukDebugger.pushRecognizer]
  | taken id =>
      simp [issued, System.move, System.stored, DukDebugger.continueCall, DukDebugger.create,
        coming, hc, CallState.request?, DukDebugger.pushRecognizer]
  | created request =>
      simp [issued, System.move, System.stored, DukDebugger.continueCall, coming, hc,
        CallState.request?, DukDebugger.refillDataToSend_eq]

theorem step_read_eq_some {sign : CharSign} {s s' : Dialogue} {length : ℕ}
    (h : step sign s (.read length) = some s') :
    s' = ⟨{ s.system with
        debugger := (s.system.debugger.innerSendData length).2
        consumed := s.system.consumed ++ (s.system.debugger.innerSendData length).1
        written := s.system.written ++
          (s.engine.process [] (s.system.debugger.innerSendData length).1).1 },
      (s.engine.process [] (s.system.debugger.innerSendData length).1).2, s.history⟩ := by
  obtain ⟨system, hsystem, rfl⟩ := Option.map_eq_some_iff.mp h
  rw [System.step] at hsystem
  split_ifs at hsystem
  cases hsystem
  rfl

theorem step_put_eq_some {sign : CharSign} {s s' : Dialogue} {data : Bytes}
    (h : step sign s (.put data) = some s') :
    s' = ⟨{ s.system with
        debugger := s.system.debugger.dukTransDvalueWrite sign data
        calls := s.system.calls ++ (s.system.debugger.grammarReceiver.put sign data).1
        changes := s.system.changes ++
          (storedPlaces s.system.debugger (s.system.debugger.grammarReceiver.put sign data).1).map
            fun entry => .stored entry.1 entry.2 },
      s.engine, s.history⟩ := by
  obtain ⟨system, hsystem, rfl⟩ := Option.map_eq_some_iff.mp h
  rw [System.step] at hsystem
  split_ifs at hsystem
  cases hsystem
  rfl

/-- The client's end is matched, every request can be read, and Duktape has answered the
first requests and awaits the others. -/
structure Linked (s : Dialogue) : Prop where
  matched : ∃ accepted waiting, s.system.Matched accepted waiting
  sent : AllSent s.issued
  keys : ∀ (id : Int) place, s.system.debugger.breakpointMap[id]? = some place → IntEncodable id
  answers : (s.system.written, s.engine.table) =
    serve emptyTable (s.system.appended.take s.system.written.length)
  awaits : Awaits s.engine s.system.debugger.outputBuffer
    (s.system.appended.drop s.system.written.length)

theorem linked_init : Linked init := by
  refine ⟨⟨[], [], System.matched_init⟩, fun request h => absurd h List.not_mem_nil, ?_, rfl, rfl⟩
  intro id place h
  have hnone : (∅ : Std.ExtTreeMap Int Place)[id]? = none := Std.ExtTreeMap.getElem?_empty
  exact absurd (hnone.symm.trans h) (by simp)

namespace Linked

variable {sign : CharSign} {s s' : Dialogue}

theorem allSent_appended (h : s.Linked) : AllSent s.system.appended :=
  fun request hmem => h.sent request (List.mem_append_left _ hmem)

theorem allSent_take (h : s.Linked) (n : ℕ) : AllSent (s.system.appended.take n) :=
  fun request hmem => h.allSent_appended request (List.mem_of_mem_take hmem)

theorem allSent_drop (h : s.Linked) (n : ℕ) : AllSent (s.system.appended.drop n) :=
  fun request hmem => h.allSent_appended request (List.mem_of_mem_drop hmem)

theorem written_eq (h : s.Linked) : s.system.written =
    (serve emptyTable (s.system.appended.take s.system.written.length)).1 :=
  congrArg Prod.fst h.answers

theorem table_eq (h : s.Linked) : s.engine.table =
    (serve emptyTable (s.system.appended.take s.system.written.length)).2 :=
  congrArg Prod.snd h.answers

/-- What Duktape will have answered to all requests that were appended. -/
theorem serve_appended (h : s.Linked) : serve emptyTable s.system.appended =
    (s.system.written ++
        (serve s.engine.table (s.system.appended.drop s.system.written.length)).1,
      (serve s.engine.table (s.system.appended.drop s.system.written.length)).2) := by
  have hsplit := serve_append (h.allSent_take s.system.written.length) emptyTable
    (s.system.appended.drop s.system.written.length)
  rwa [List.take_append_drop, ← h.written_eq, ← h.table_eq] at hsplit

theorem length_written (h : s.Linked) : s.system.written.length ≤ s.system.appended.length ∧
    (replies s.system.written).length = s.system.written.length := by
  obtain ⟨hlen, hreplies⟩ := length_serve (h.allSent_take s.system.written.length) emptyTable
  rw [← h.written_eq] at hlen hreplies
  rw [List.length_take] at hlen
  exact ⟨by omega, hreplies.trans (by rw [List.length_take]; omega)⟩

theorem call (h : s.Linked) {c : BreakpointCall} (hcond : s.Encodes (.call c))
    (hstep : step sign s (.call c) = some s') : s'.Linked := by
  obtain ⟨system, hsystem, heq⟩ := Option.map_eq_some_iff.mp hstep
  have hmatched := System.matched_step_of_subsingleton sign _ _ _ h.matched hsystem
  obtain ⟨hidle, next, hnext, rfl⟩ := step_call_eq_some hstep
  have hsystem : system = s.system.move () next (s.system.debugger.removals c.method) :=
    congrArg Dialogue.system heq
  subst hsystem
  have happended := appended_move hidle next (s.system.debugger.removals c.method)
  refine ⟨hmatched, ?_, fun id place hmap => h.keys id place (hnext.breakpointMap hmap), ?_, ?_⟩
  · rw [issued_move hidle]
    refine List.forall_mem_append.mpr ⟨h.sent, ?_⟩
    intro request hrequest
    cases hnext with
    | known _ => cases hrequest
    | pend hfind =>
        cases List.mem_singleton.mp hrequest
        obtain ⟨hname, hline⟩ := hcond hfind
        exact ⟨_, Sent.add hname hline⟩
    | unknown _ => cases hrequest
    | take hfind _ =>
        cases List.mem_singleton.mp hrequest
        exact ⟨_, Sent.remove (h.keys _ _ (DukDebugger.findBreakpoint_eq_some hfind).1)⟩
    | lost _ => cases hrequest
  · change (s.system.written, s.engine.table) = _
    rw [happended]
    exact h.answers
  · change Awaits s.engine next.1.outputBuffer _
    rw [hnext.outputBuffer, happended]
    exact h.awaits

theorem advance (h : s.Linked) (hstep : step sign s .advance = some s') : s'.Linked := by
  obtain ⟨system, hsystem, heq⟩ := Option.map_eq_some_iff.mp hstep
  have hmatched := System.matched_step_of_subsingleton sign _ _ _ h.matched hsystem
  obtain ⟨hissued, hengine, _, hwritten, hmap, _, _, _, more, happended, hbuffer⟩ :=
    step_advance_eq_some hstep
  obtain ⟨hle, _⟩ := h.length_written
  have hsystem : s'.system = system := congrArg Dialogue.system heq.symm
  refine ⟨hsystem ▸ hmatched, hissued ▸ h.sent, hmap ▸ h.keys, ?_, ?_⟩
  · rw [hwritten, hengine, happended, List.take_append_of_le_length hle]
    exact h.answers
  · rw [hwritten, hengine, happended, hbuffer, List.drop_append_of_le_length hle, Awaits,
      List.map_append, List.flatten_append, ← List.append_assoc, ← List.append_assoc]
    exact congrArg (· ++ (more.map Request.frame).flatten) h.awaits

theorem read (h : s.Linked) {length : ℕ} (hstep : step sign s (.read length) = some s') :
    s'.Linked := by
  cases step_read_eq_some hstep
  obtain ⟨hle, hreplies⟩ := h.length_written
  have hawaits := h.awaits
  rw [← DukDebugger.innerSendData_append s.system.debugger length] at hawaits
  obtain ⟨done, others, hdrop, hanswers, hawaits'⟩ :=
    hawaits.process (h.allSent_drop s.system.written.length)
  have hsent : AllSent done := by
    have hall := h.allSent_drop s.system.written.length
    rw [hdrop] at hall
    exact (List.forall_mem_append.mp hall).1
  have hfirst : (s.engine.process [] (s.system.debugger.innerSendData length).1).1 =
      (serve s.engine.table done).1 := congrArg Prod.fst hanswers
  have hlen : (serve s.engine.table done).1.length = done.length := (length_serve hsent _).1
  have htake : s.system.appended.take (s.system.written.length + done.length) =
      s.system.appended.take s.system.written.length ++ done := by
    rw [List.take_add, hdrop, List.take_left]
  obtain ⟨accepted, waiting, hmatched⟩ := h.matched
  have hdropReplies : s.system.appended.drop (replies s.system.written).length = done ++ others := by
    rw [hreplies]
    exact hdrop
  have hserve := (hmatched.read length).serve hdropReplies hsent s.engine.table
  refine ⟨⟨accepted, _, hfirst ▸ hserve⟩, h.sent, ?_, ?_, ?_⟩
  · rw [DukDebugger.innerSendData_eq]
    exact h.keys
  · simp only [List.length_append]
    rw [hfirst, hlen, htake, serve_append (h.allSent_take _), ← h.answers, ← hanswers]
  · simp only [List.length_append]
    rw [hfirst, hlen, ← List.drop_drop, hdrop, List.drop_left]
    exact hawaits'

/-- The indices that the receivers have been called with fit into a request. -/
theorem encodable_of_receiveAll {accepted : List DukMessage} {queue queue' : List ReplyRecognizer}
    {calls : List Callback} (hsupp : ∀ m ∈ accepted, m.Supported)
    (hrec : receiveAll accepted queue = some (calls, queue')) {replyInt : ReplyInt}
    (hmem : .replyAddBreakpointReceiver replyInt ∈ calls) : IntEncodable replyInt.value := by
  induction accepted generalizing queue calls with
  | nil =>
      cases hrec
      cases hmem
  | cons m accepted ih =>
      obtain ⟨first, rest, hfirst, hrest, heq⟩ := receiveAll_cons_eq_some_iff.mp hrec
      cases heq
      obtain ⟨hm, hsupp⟩ := List.forall_mem_cons.mp hsupp
      rcases List.mem_append.mp hmem with hin | hin
      · cases m with
        | status paused activation =>
            cases hfirst
            simp at hin
        | throw fatal msg fileName line =>
            cases hfirst
            simp at hin
        | error code msg => cases hm
        | reply value =>
            cases queue with
            | nil => cases hfirst
            | cons k queue =>
                obtain ⟨calls', hcalls, heq⟩ := Option.map_eq_some_iff.mp hfirst
                cases heq
                cases value <;> cases k <;> cases hcalls <;> simp at hin
                subst hin
                exact hm
      · exact ih hsupp hrest hin

theorem keys_foldl_call {calls : List Callback} {d : DukDebugger}
    (hd : ∀ (id : Int) place, d.breakpointMap[id]? = some place → IntEncodable id)
    (hcalls : ∀ replyInt, .replyAddBreakpointReceiver replyInt ∈ calls →
      IntEncodable replyInt.value) (id : Int) (place : Place)
    (hmap : (calls.foldl DukDebugger.call d).breakpointMap[id]? = some place) :
    IntEncodable id := by
  induction calls generalizing d with
  | nil => exact hd id place hmap
  | cons c calls ih =>
      refine ih ?_ (fun replyInt hmem => hcalls replyInt (List.mem_cons_of_mem _ hmem)) hmap
      intro id' place' hmap'
      cases c with
      | replyAddBreakpointReceiver replyInt =>
          rw [DukDebugger.call, DukDebugger.onAddBreakpoint] at hmap'
          split at hmap'
          · exact hd id' place' hmap'
          · rw [Std.ExtTreeMap.getElem?_insert] at hmap'
            split at hmap'
            · rename_i heq
              rw [← Std.LawfulEqCmp.eq_of_compare heq]
              exact hcalls replyInt List.mem_cons_self
            · exact hd id' place' hmap'
      | _ => exact hd id' place' hmap'

theorem put (h : s.Linked) {data : Bytes} (hstep : step sign s (.put data) = some s') :
    s'.Linked := by
  obtain ⟨system, hsystem, heq⟩ := Option.map_eq_some_iff.mp hstep
  have hmatched := System.matched_step_of_subsingleton sign _ _ _ h.matched hsystem
  cases step_put_eq_some hstep
  cases heq
  refine ⟨hmatched, h.sent, ?_, h.answers, ?_⟩
  · obtain ⟨accepted, waiting, hm⟩ := hmatched
    exact keys_foldl_call (d := { s.system.debugger with grammarReceiver := _ }) h.keys
      fun replyInt hmem => encodable_of_receiveAll hm.received.supported hm.received.received
        (List.mem_append_right _ hmem)
  · change Awaits s.engine (s.system.debugger.dukTransDvalueWrite sign data).outputBuffer _
    rw [DukDebugger.dukTransDvalueWrite, (DukDebugger.foldl_call _ _).2]
    exact h.awaits

end Linked

theorem linked_step (sign : CharSign) (s : Dialogue) (e : DialogueEvent) (s' : Dialogue)
    (h : s.Linked) (hcond : s.Encodes e) (hstep : step sign s e = some s') : s'.Linked := by
  cases e with
  | call c => exact h.call hcond hstep
  | advance => exact h.advance hstep
  | read length => exact h.read hstep
  | put data => exact h.put hstep

end Dialogue

end Debugger

end UnifyFramework
