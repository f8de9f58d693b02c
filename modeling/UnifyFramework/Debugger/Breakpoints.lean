import UnifyFramework.Debugger.Client
import UnifyFramework.Debugger.Received
import UnifyFramework.Duktape.Answer
import UnifyFramework.Transition.Run

/-!
# Breakpoint identifiers on both sides

`AddBreakpoint` and `RemoveBreakpoint` calls of one client that waits for each reply:
a call is made, Duktape processes the bytes it is sent, and the bytes it answers are
put. The debugger keeps every breakpoint under the index Duktape returned for it, and
Duktape renumbers the entries behind one that it deletes, which the debugger does not.
The two tables stay equal as long as only the breakpoint with the highest identifier
is removed and every breakpoint that is added can be encoded and has a slot.
-/

namespace UnifyFramework

namespace Debugger

open Duktape Transition Parsing Parsing.Parser

structure Connection where
  debugger : DukDebugger
  engine : Engine

inductive BreakpointCall
  | add (filename : Bytes) (line : Int)
  | remove (filename : Bytes) (line : Int)
  deriving DecidableEq, Repr

def placeOf (b : Breakpoint) : Place := (b.filename, (b.line.toNat : Int))

def placeAt (entries : List Breakpoint) (index : Int) : Option Place :=
  if 0 ≤ index then entries[index.toNat]?.map placeOf else none

namespace Connection

def init : Connection := ⟨DukDebugger.init, ⟨⟨[], Nat.zero_le _⟩, false, []⟩⟩

def exchange (sign : CharSign) (c : Connection) : Connection :=
  let sent := c.debugger.innerSendData c.debugger.outputBuffer.length
  let answered := c.engine.process [] sent.1
  ⟨sent.2.dukTransDvalueWrite sign (streamBytes answered.1), answered.2⟩

def perform (sign : CharSign) (c : Connection) : BreakpointCall → Connection
  | .add filename line => exchange sign { c with debugger := c.debugger.addBreakpoint filename line }
  | .remove filename line =>
      exchange sign { c with debugger := c.debugger.removeBreakpoint filename line }

def step (sign : CharSign) (c : Connection) (call : BreakpointCall) : Option Connection :=
  if c.debugger.grammarReceiver.recognizerQueue = [] then some (perform sign c call) else none

/-- `breakpointMap` is the breakpoint table of Duktape. -/
def InStep (c : Connection) : Prop :=
  ∀ index : Int, c.debugger.breakpointMap[index]? = placeAt c.engine.table.entries index

/-- The condition on the calls: a breakpoint that is added can be encoded and has a slot,
and one that is removed has the highest identifier. -/
def Keeps (c : Connection) : BreakpointCall → Prop
  | .add filename line =>
      c.debugger.findBreakpoint (filename, line) = none →
        SizeEncodable filename.length ∧ IntEncodable line ∧
          c.engine.table.entries.length < maxBreakpoints
  | .remove filename line =>
      ∀ id ∈ c.debugger.findBreakpoint (filename, line), id + 1 = c.engine.table.entries.length

instance decidableKeeps (c : Connection) : (call : BreakpointCall) → Decidable (c.Keeps call)
  | .add _ _ => inferInstanceAs (Decidable (_ → _))
  | .remove _ _ => inferInstanceAs (Decidable (∀ _ ∈ _, _))

/-- A connection on which nothing is under way. -/
def quiet (total : Bytes) (map : Std.ExtTreeMap Int Place) (firstPause : Bool)
    (table : BreakpointTable) : Connection :=
  ⟨⟨⟨total, [], []⟩, map, [], [], firstPause⟩, ⟨table, false, []⟩⟩

def Quiet (c : Connection) : Prop :=
  ∃ total map firstPause table, c = quiet total map firstPause table

end Connection

theorem placeAt_natCast (entries : List Breakpoint) (n : ℕ) :
    placeAt entries n = entries[n]?.map placeOf := by
  rw [placeAt, if_pos (Int.natCast_nonneg n), Int.toNat_natCast]

theorem placeAt_append (entries : List Breakpoint) (b : Breakpoint) (index : Int) :
    placeAt (entries ++ [b]) index =
      if (entries.length : Int) = index then some (placeOf b) else placeAt entries index := by
  by_cases hindex : 0 ≤ index
  · obtain ⟨n, rfl⟩ := Int.eq_ofNat_of_zero_le hindex
    simp only [placeAt_natCast, Int.natCast_inj]
    split_ifs with heq
    · subst heq
      simp
    · rcases Nat.lt_or_ge n entries.length with hlt | hge
      · rw [List.getElem?_append_left hlt]
      · have hlen : (entries ++ [b]).length ≤ n := by
          rw [List.length_append, List.length_singleton]
          omega
        rw [List.getElem?_eq_none hge, List.getElem?_eq_none hlen]
  · have hne : (entries.length : Int) ≠ index := by omega
    simp only [placeAt, if_neg hindex, if_neg hne]

theorem placeAt_eq_some_iff {entries : List Breakpoint} {index : Int} {place : Place} :
    placeAt entries index = some place ↔
      ∃ (n : ℕ) (b : Breakpoint), (n : Int) = index ∧ entries[n]? = some b ∧ placeOf b = place := by
  constructor
  · intro h
    by_cases hindex : 0 ≤ index
    · obtain ⟨n, rfl⟩ := Int.eq_ofNat_of_zero_le hindex
      rw [placeAt_natCast] at h
      obtain ⟨b, hb, hplace⟩ := Option.map_eq_some_iff.mp h
      exact ⟨n, b, rfl, hb, hplace⟩
    · rw [placeAt, if_neg hindex] at h
      cases h
  · rintro ⟨n, b, rfl, hb, hplace⟩
    rw [placeAt_natCast, hb, Option.map_some, hplace]

theorem placeAt_eraseIdx_last {entries : List Breakpoint} {n : ℕ} (h : n + 1 = entries.length)
    (index : Int) :
    placeAt (entries.eraseIdx n) index = if (n : Int) = index then none else placeAt entries index := by
  by_cases hindex : 0 ≤ index
  · obtain ⟨m, rfl⟩ := Int.eq_ofNat_of_zero_le hindex
    simp only [placeAt_natCast, Int.natCast_inj, List.getElem?_eraseIdx]
    split_ifs with hlt heq heq
    · omega
    · rfl
    · rw [List.getElem?_eq_none (by omega), Option.map_none]
    · rw [List.getElem?_eq_none (by omega), List.getElem?_eq_none (by omega)]
  · have hne : (n : Int) ≠ index := by omega
    simp only [placeAt, if_neg hindex, if_neg hne]

theorem placeOf_encodable {filename : Bytes} {line : Int} (h : IntEncodable line) :
    placeOf ⟨filename, UInt32.ofNat line.toNat⟩ = (filename, line) := by
  obtain ⟨hlo, hhi⟩ := h
  rw [placeOf, UInt32.toNat_ofNat', Nat.mod_eq_of_lt (by omega), Int.toNat_of_nonneg hlo]

namespace Connection

theorem Quiet.exchange (sign : CharSign) {c : Connection} (h : c.Quiet) : c.exchange sign = c := by
  obtain ⟨total, map, firstPause, table, rfl⟩ := h
  have hput : GrammarReceiver.put sign ⟨total, [], []⟩ [] = ([], ⟨total, [], []⟩) := by
    apply GrammarReceiver.put_eq_of_exhausts
    rw [GrammarReceiver.insert, List.append_nil, List.append_nil]
    exact Exhausts.stop (GrammarReceiver.round_nil sign total [])
  have hprocess : Engine.process [] ⟨table, false, []⟩ [] = ([], ⟨table, false, []⟩) := rfl
  simp only [Connection.exchange, quiet, DukDebugger.innerSendData, List.length_nil, Nat.lt_irrefl,
    if_false, hprocess, DukDebugger.dukTransDvalueWrite, streamBytes_nil, hput, List.foldl_nil]

/-- A request that Duktape reads and answers with a supported message. -/
theorem exchange_send (sign : CharSign) {total frame : Bytes} {map : Std.ExtTreeMap Int Place}
    {pending : List Place} {firstPause : Bool} {table table' : BreakpointTable}
    {k : ReplyRecognizer} {m : DukMessage} {calls : List Callback}
    (hprocess : Engine.process [] ⟨table, false, []⟩ frame = ([m], ⟨table', false, []⟩))
    (hrec : receive m [k] = some (calls, [])) (hm : m.Supported) :
    exchange sign ⟨⟨⟨total, [], [k]⟩, map, pending, frame, firstPause⟩, ⟨table, false, []⟩⟩ =
      ⟨calls.foldl DukDebugger.call ⟨⟨total ++ m.bytes, [], []⟩, map, pending, [], firstPause⟩,
        ⟨table', false, []⟩⟩ := by
  have hput := put_message sign total hrec hm
  simp only [exchange, DukDebugger.innerSendData, Nat.lt_irrefl, if_false, hprocess,
    DukDebugger.dukTransDvalueWrite, streamBytes_cons, streamBytes_nil, List.append_nil, hput]

theorem index_supported {n : ℕ} (h : n < maxBreakpoints) :
    IntSupported (Int32.ofNat n) ∧ (Int32.ofNat n).toInt = n := by
  have hvalue : (Int32.ofNat n).toInt = n :=
    Int32.toInt_ofNat_of_lt (Nat.lt_trans h (by decide))
  have hn : n < 16 := h
  refine ⟨?_, hvalue⟩
  rw [IntSupported, hvalue]
  omega

theorem perform_add (sign : CharSign) (total : Bytes) {map : Std.ExtTreeMap Int Place}
    (firstPause : Bool) {table : BreakpointTable} {filename : Bytes} {line : Int}
    (hfind : (quiet total map firstPause table).debugger.findBreakpoint (filename, line) = none)
    (hname : SizeEncodable filename.length) (hline : IntEncodable line)
    (hslot : table.entries.length < maxBreakpoints) :
    ∃ total' table', table'.entries = table.entries ++ [⟨filename, UInt32.ofNat line.toNat⟩] ∧
      perform sign (quiet total map firstPause table) (.add filename line) =
        quiet total' (map.insert table.entries.length (filename, line)) firstPause table' := by
  obtain ⟨table', hentries, hprocess⟩ := process_addBreakpoint [] hname hline hslot
  obtain ⟨hsupp, hvalue⟩ := index_supported hslot
  have hrec : receive (.reply (.index (Int32.ofNat table.entries.length))) [.replyAddBreakpoint] =
      some ([.replyAddBreakpointReceiver ⟨(Int32.ofNat table.entries.length).toInt⟩], []) := rfl
  have hsend : (quiet total map firstPause table).debugger.addBreakpoint filename line =
      ⟨⟨total, [], [.replyAddBreakpoint]⟩, map, [(filename, line)],
        (createAddBreakpointRequest filename line).frame, firstPause⟩ := by
    simp only [DukDebugger.addBreakpoint, DukDebugger.pendBreakpoint, hfind]
    rfl
  refine ⟨total ++ DukMessage.bytes (.reply (.index (Int32.ofNat table.entries.length))), table',
    hentries, ?_⟩
  rw [perform, hsend]
  refine (exchange_send sign hprocess hrec hsupp).trans ?_
  simp only [List.foldl_cons, List.foldl_nil, DukDebugger.call, DukDebugger.onAddBreakpoint, hvalue]
  rfl

theorem perform_remove (sign : CharSign) (total : Bytes) {map : Std.ExtTreeMap Int Place}
    (firstPause : Bool) {table : BreakpointTable} {filename : Bytes} {line : Int} {id : ℕ}
    (hfind : (quiet total map firstPause table).debugger.findBreakpoint (filename, line) =
      some (id : Int))
    (hid : id < table.entries.length) :
    ∃ total' table', table'.entries = table.entries.eraseIdx id ∧
      perform sign (quiet total map firstPause table) (.remove filename line) =
        quiet total' (map.erase (id : Int)) firstPause table' := by
  have hlt : id < 16 := Nat.lt_of_lt_of_le hid table.count_le
  have hne : (id : Int) ≠ -1 := by omega
  obtain ⟨table', hentries, hprocess⟩ :=
    process_removeBreakpoint [] (⟨by omega, by omega⟩ : IntEncodable id) hid
  have hrec : receive (.reply .empty) [.replyRemoveBreakpoint] =
      some ([.replyRemoveBreakpointReceiver ⟨[]⟩], []) := rfl
  have hsend : (quiet total map firstPause table).debugger.removeBreakpoint filename line =
      ⟨⟨total, [], [.replyRemoveBreakpoint]⟩, map.erase (id : Int), [],
        (createRemoveBreakpointRequest id).frame, firstPause⟩ := by
    simp only [DukDebugger.removeBreakpoint, DukDebugger.takeBreakpoint, hfind, ne_eq, hne,
      not_false_eq_true, if_true]
    rfl
  refine ⟨total ++ DukMessage.bytes (.reply .empty), table', hentries, ?_⟩
  rw [perform, hsend]
  exact exchange_send sign hprocess hrec trivial

/-- While the tables agree, the identifier found is the index of the first entry of
Duktape with the place. -/
theorem find_of_inStep {c : Connection} (h : c.InStep) {place : Place} {id : Int}
    (hfind : c.debugger.findBreakpoint place = some id) :
    ∃ n : ℕ, id = n ∧ c.engine.table.entries.findIdx? (fun b => placeOf b = place) = some n := by
  obtain ⟨hmap, hfirst⟩ := DukDebugger.findBreakpoint_eq_some hfind
  rw [h] at hmap
  obtain ⟨n, b, rfl, hb, hplace⟩ := placeAt_eq_some_iff.mp hmap
  obtain ⟨hn, rfl⟩ := List.getElem?_eq_some_iff.mp hb
  refine ⟨n, rfl, List.findIdx?_eq_some_iff_getElem.mpr ⟨hn, by simpa using hplace, ?_⟩⟩
  intro j hj hplacej
  have hmapj := hfirst j (Int.ofNat_lt.mpr hj)
  rw [h, placeAt_natCast, List.getElem?_eq_getElem (Nat.lt_trans hj hn)] at hmapj
  exact hmapj (congrArg some (of_decide_eq_true hplacej))

theorem lt_of_findIdx? {entries : List Breakpoint} {p : Breakpoint → Bool} {n : ℕ}
    (h : entries.findIdx? p = some n) : n < entries.length :=
  (List.findIdx?_eq_some_iff_getElem.mp h).1

theorem perform_remove_of_not_found (sign : CharSign) {c : Connection} (hquiet : c.Quiet)
    {filename : Bytes} {line : Int} (h : c.debugger.findBreakpoint (filename, line) = none) :
    perform sign c (.remove filename line) = c := by
  have hsame : c.debugger.removeBreakpoint filename line = c.debugger := by
    simp only [DukDebugger.removeBreakpoint, DukDebugger.takeBreakpoint, h]
    rfl
  rw [perform, hsame]
  exact hquiet.exchange sign

theorem perform_add_of_found (sign : CharSign) {c : Connection} (hquiet : c.Quiet)
    {filename : Bytes} {line id : Int} (h : c.debugger.findBreakpoint (filename, line) = some id) :
    perform sign c (.add filename line) = c := by
  have hsame : c.debugger.addBreakpoint filename line = c.debugger := by
    simp only [DukDebugger.addBreakpoint, DukDebugger.pendBreakpoint, h, Option.isSome_some, if_true]
  rw [perform, hsame]
  exact hquiet.exchange sign

/-- While the tables agree, Duktape deletes the entry that is to be removed. -/
theorem entries_remove (sign : CharSign) {c : Connection} (hquiet : c.Quiet) (h : c.InStep)
    (filename : Bytes) (line : Int) :
    (perform sign c (.remove filename line)).engine.table.entries =
      c.engine.table.entries.eraseP fun b => placeOf b = (filename, line) := by
  rw [List.eraseP_eq_eraseIdx]
  cases hfind : c.debugger.findBreakpoint (filename, line) with
  | none =>
      have hnone : c.engine.table.entries.findIdx? (fun b => placeOf b = (filename, line)) = none := by
        rw [List.findIdx?_eq_none_iff]
        intro b hb
        obtain ⟨n, hn⟩ := List.mem_iff_getElem?.mp hb
        have hmap := (DukDebugger.findBreakpoint_eq_none_iff _ _).mp hfind n
        rw [h, placeAt_natCast, hn, Option.map_some] at hmap
        exact decide_eq_false fun hplace => hmap (congrArg some hplace)
      rw [perform_remove_of_not_found sign hquiet hfind, hnone]
  | some id =>
      obtain ⟨n, rfl, hindex⟩ := find_of_inStep h hfind
      obtain ⟨total, map, firstPause, table, rfl⟩ := hquiet
      obtain ⟨total', table', hentries, hperform⟩ :=
        perform_remove sign total firstPause hfind (lt_of_findIdx? hindex)
      rw [hperform, hindex]
      exact hentries

/-- While the tables agree, a removal keeps them in agreement exactly if there is
nothing to remove or the breakpoint has the highest identifier. -/
theorem inStep_remove_iff (sign : CharSign) {c : Connection} (hquiet : c.Quiet) (h : c.InStep)
    (filename : Bytes) (line : Int) :
    (perform sign c (.remove filename line)).InStep ↔ c.Keeps (.remove filename line) := by
  cases hfind : c.debugger.findBreakpoint (filename, line) with
  | none =>
      rw [perform_remove_of_not_found sign hquiet hfind]
      simp only [h, Keeps, hfind, Option.mem_def, reduceCtorEq, false_implies, implies_true]
  | some id =>
      obtain ⟨n, rfl, hindex⟩ := find_of_inStep h hfind
      have hn := lt_of_findIdx? hindex
      obtain ⟨total, map, firstPause, table, rfl⟩ := hquiet
      obtain ⟨total', table', hentries, hperform⟩ := perform_remove sign total firstPause hfind hn
      have hmap : ∀ index : Int, (map.erase (n : Int))[index]? =
          if (n : Int) = index then none else placeAt table.entries index := by
        intro index
        have hagree : map[index]? = placeAt table.entries index := h index
        rw [Std.ExtTreeMap.getElem?_erase, hagree]
        simp only [compare_eq_iff_eq]
      have hkeeps : (quiet total map firstPause table).Keeps (.remove filename line) ↔
          n + 1 = table.entries.length := by
        simp only [Keeps, hfind, Option.mem_def, Option.some.injEq, forall_eq']
        exact Int.natCast_inj
      rw [hperform, hkeeps]
      constructor
      · intro hstep
        by_contra hlast
        -- the entry with the highest index is still in the map, but has moved in the table
        have hlt : n < table.entries.length := hn
        have hhigh : (map.erase (n : Int))[((table.entries.length - 1 : ℕ) : Int)]? =
            placeAt table'.entries ((table.entries.length - 1 : ℕ) : Int) := hstep _
        have hlen : (table.entries.eraseIdx n).length = table.entries.length - 1 :=
          List.length_eraseIdx_of_lt hlt
        rw [hmap, if_neg (by omega), placeAt_natCast, placeAt_natCast, hentries,
          List.getElem?_eq_getElem (by omega : table.entries.length - 1 < table.entries.length),
          List.getElem?_eq_none (by omega)] at hhigh
        cases hhigh
      · intro hlast index
        refine (hmap index).trans ?_
        rw [← placeAt_eraseIdx_last hlast, ← hentries]
        rfl

theorem inStep_add (sign : CharSign) {c : Connection} (hquiet : c.Quiet) (h : c.InStep)
    {filename : Bytes} {line : Int} (hkeeps : c.Keeps (.add filename line)) :
    (perform sign c (.add filename line)).Quiet ∧ (perform sign c (.add filename line)).InStep := by
  cases hfind : c.debugger.findBreakpoint (filename, line) with
  | some id =>
      rw [perform_add_of_found sign hquiet hfind]
      exact ⟨hquiet, h⟩
  | none =>
      obtain ⟨hname, hline, hslot⟩ := hkeeps hfind
      obtain ⟨total, map, firstPause, table, rfl⟩ := hquiet
      obtain ⟨total', table', hentries, hperform⟩ :=
        perform_add sign total firstPause hfind hname hline hslot
      rw [hperform]
      refine ⟨⟨_, _, _, _, rfl⟩, fun index => ?_⟩
      have hagree : map[index]? = placeAt table.entries index := h index
      change (map.insert (table.entries.length : Int) (filename, line))[index]? =
        placeAt table'.entries index
      rw [hentries, placeAt_append, placeOf_encodable hline, Std.ExtTreeMap.getElem?_insert, hagree]
      simp only [compare_eq_iff_eq]

theorem quiet_remove (sign : CharSign) {c : Connection} (hquiet : c.Quiet) (h : c.InStep)
    (filename : Bytes) (line : Int) : (perform sign c (.remove filename line)).Quiet := by
  cases hfind : c.debugger.findBreakpoint (filename, line) with
  | none =>
      rw [perform_remove_of_not_found sign hquiet hfind]
      exact hquiet
  | some id =>
      obtain ⟨n, rfl, hindex⟩ := find_of_inStep h hfind
      obtain ⟨total, map, firstPause, table, rfl⟩ := hquiet
      obtain ⟨total', table', _, hperform⟩ :=
        perform_remove sign total firstPause hfind (lt_of_findIdx? hindex)
      rw [hperform]
      exact ⟨_, _, _, _, rfl⟩

theorem settled_step (sign : CharSign) (c : Connection) (call : BreakpointCall) (c' : Connection)
    (h : c.Quiet ∧ c.InStep) (hkeeps : c.Keeps call) (hstep : step sign c call = some c') :
    c'.Quiet ∧ c'.InStep := by
  rw [step] at hstep
  split_ifs at hstep
  cases hstep
  cases call with
  | add filename line => exact inStep_add sign h.1 h.2 hkeeps
  | remove filename line =>
      exact ⟨quiet_remove sign h.1 h.2 filename line,
        (inStep_remove_iff sign h.1 h.2 filename line).mpr hkeeps⟩

/-- In every state of a run whose calls keep to the condition, every reply has been
processed, the two tables agree, and a removal deletes the entry with the file and the
line and no other. -/
theorem breakpoints_in_step (sign : CharSign) (calls : List BreakpointCall) (c : Connection)
    (hkeeps : Along (step sign) Keeps init calls) (hrun : run (step sign) init calls = some c) :
    c.debugger.grammarReceiver.recognizerQueue = [] ∧ c.InStep ∧
      ∀ (filename : Bytes) (line : Int),
        (perform sign c (.remove filename line)).engine.table.entries =
          c.engine.table.entries.eraseP fun b => placeOf b = (filename, line) := by
  have hinit : init.Quiet ∧ init.InStep := by
    refine ⟨⟨[], ∅, false, ⟨[], Nat.zero_le _⟩, rfl⟩, fun index => ?_⟩
    have hempty : placeAt [] index = none := by
      rw [placeAt]
      split_ifs <;> rfl
    exact Std.ExtTreeMap.getElem?_empty.trans hempty.symm
  obtain ⟨hquiet, hstep⟩ :=
    run_invariant_along (I := fun c => c.Quiet ∧ c.InStep) (settled_step sign) hinit hkeeps hrun
  refine ⟨?_, hstep, entries_remove sign hquiet hstep⟩
  obtain ⟨total, map, firstPause, table, rfl⟩ := hquiet
  rfl

def addAddRemove : List BreakpointCall := [.add [0x61] 1, .add [0x62] 200, .remove [0x62] 200]

theorem breakpoints_in_step_addAddRemove :
    ∃ c, run (step .signed) init addAddRemove = some c ∧ c.InStep ∧
      c.engine.table.entries = [⟨[0x61], 1⟩] :=
  ⟨_, rfl, (breakpoints_in_step .signed addAddRemove _ (by decide) rfl).2.1, by decide⟩

def removeFirst : List BreakpointCall :=
  [.add [0x61] 1, .add [0x62] 2, .add [0x63] 3, .remove [0x61] 1]

/-- The debugger still has the second breakpoint under identifier 1, which is now the
third one, so removing the second breakpoint deletes the third. -/
theorem not_inStep_removeFirst :
    ∃ c, run (step .signed) init removeFirst = some c ∧ ¬ c.InStep ∧
      c.engine.table.entries = [⟨[0x62], 2⟩, ⟨[0x63], 3⟩] ∧
      (perform .signed c (.remove [0x62] 2)).engine.table.entries = [⟨[0x62], 2⟩] :=
  ⟨_, rfl, fun h => absurd (h 1) (by decide), by decide, by decide⟩

end Connection

end Debugger

end UnifyFramework
