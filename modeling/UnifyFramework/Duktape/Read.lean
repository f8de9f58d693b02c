import UnifyFramework.Duktape.Write
import UnifyFramework.Transition.Loop

/-!
# How Duktape reads requests

The `duk_debug_read_*` functions of `duk_debugger.c` as byte parsers, the skipping
of the rest of a message, and the handlers of the requests the debugger sends. A
parser has no value where Duktape waits for more bytes or breaks the connection; in
neither case is there an answer.
-/

namespace UnifyFramework

namespace Duktape

open Parsing Parsing.Parser Transition Debugger

def dukDebugReadByte : Parser UInt8 UInt8 := satisfy fun _ => true

/-- `duk_debug_read_bytes` and `duk_debug_skip_bytes`. -/
def dukDebugReadBytes (length : ℕ) : Parser UInt8 Bytes := count dukDebugReadByte length

def dukDebugReadUint32Raw : Parser UInt8 UInt32 := do
  let buf ← dukDebugReadBytes 4
  pure (UInt32.ofNat (ofBigEndian buf))

def dukDebugReadUint16Raw : Parser UInt8 UInt16 := do
  let buf ← dukDebugReadBytes 2
  pure (UInt16.ofNat (ofBigEndian buf))

/-- A parser that has no value on any input: the connection breaks. -/
def connBroken {α : Type} : Parser UInt8 α := fun _ => none

def dukDebugReadInt : Parser UInt8 Int32 := do
  let x ← dukDebugReadByte
  if 0xc0 ≤ x then do
    let t ← dukDebugReadByte
    pure (Int32.ofNat ((x.toNat - 0xc0) * 256 + t.toNat))
  else if 0x80 ≤ x then pure (Int32.ofNat (x.toNat - 0x80))
  else if x = 0x10 then do
    let value ← dukDebugReadUint32Raw
    pure value.toInt32
  else connBroken

def dukDebugReadHstring : Parser UInt8 Bytes := do
  let x ← dukDebugReadByte
  if 0x60 ≤ x ∧ x ≤ 0x7f then dukDebugReadBytes (x.toNat - 0x60)
  else if x = 0x12 then do
    let len ← dukDebugReadUint16Raw
    dukDebugReadBytes len.toNat
  else if x = 0x11 then do
    let len ← dukDebugReadUint32Raw
    dukDebugReadBytes len.toNat
  else connBroken

/-- `duk__debug_skip_dvalue`; `true` at the end of the message. -/
def dukDebugSkipDvalue : Parser UInt8 Bool := do
  let x ← dukDebugReadByte
  if 0xc0 ≤ x then do
    let _ ← dukDebugReadByte
    pure false
  else if 0x80 ≤ x then pure false
  else if 0x60 ≤ x then do
    let _ ← dukDebugReadBytes (x.toNat - 0x60)
    pure false
  else if x = 0x00 then pure true
  else if 0x01 ≤ x ∧ x ≤ 0x04 then pure false
  else if x = 0x10 then do
    let _ ← dukDebugReadUint32Raw
    pure false
  else if x = 0x11 ∨ x = 0x13 then do
    let len ← dukDebugReadUint32Raw
    let _ ← dukDebugReadBytes len.toNat
    pure false
  else if x = 0x12 ∨ x = 0x14 then do
    let len ← dukDebugReadUint16Raw
    let _ ← dukDebugReadBytes len.toNat
    pure false
  else if 0x15 ≤ x ∧ x ≤ 0x19 then pure false
  else if x = 0x1a then do
    let _ ← dukDebugReadBytes 8
    pure false
  else if x = 0x1b then do
    let _ ← dukDebugReadByte
    let len ← dukDebugReadByte
    let _ ← dukDebugReadBytes len.toNat
    pure false
  else if x = 0x1c then do
    let len ← dukDebugReadByte
    let _ ← dukDebugReadBytes len.toNat
    pure false
  else if x = 0x1d then do
    let _ ← dukDebugReadBytes 2
    let len ← dukDebugReadByte
    let _ ← dukDebugReadBytes len.toNat
    pure false
  else connBroken

structure Breakpoint where
  filename : Bytes
  line : UInt32
  deriving DecidableEq, Repr

def maxBreakpoints : ℕ := 16

/-- The used part of `heap->dbg_breakpoints`. -/
structure BreakpointTable where
  entries : List Breakpoint
  count_le : entries.length ≤ maxBreakpoints
  deriving DecidableEq

/-- `duk_debug_add_breakpoint`: the index of the new breakpoint, if there is a slot. -/
def dukDebugAddBreakpoint (table : BreakpointTable) (b : Breakpoint) :
    Option (ℕ × BreakpointTable) :=
  if h : table.entries.length < maxBreakpoints then
    some (table.entries.length, ⟨table.entries ++ [b], by
      rw [List.length_append]
      exact h⟩)
  else none

/-- `duk_debug_remove_breakpoint`: the later entries move down by one. -/
def dukDebugRemoveBreakpoint (table : BreakpointTable) (index : ℕ) : Option BreakpointTable :=
  if index < table.entries.length then
    some ⟨table.entries.eraseIdx index,
      Nat.le_trans (List.length_eraseIdx_le _ _) table.count_le⟩
  else none

theorem dukDebugAddBreakpoint_of_lt {table : BreakpointTable} (b : Breakpoint)
    (h : table.entries.length < maxBreakpoints) :
    ∃ table', dukDebugAddBreakpoint table b = some (table.entries.length, table') ∧
      table'.entries = table.entries ++ [b] :=
  ⟨_, dif_pos h, rfl⟩

theorem dukDebugRemoveBreakpoint_of_lt {table : BreakpointTable} {index : ℕ}
    (h : index < table.entries.length) :
    ∃ table', dukDebugRemoveBreakpoint table index = some table' ∧
      table'.entries = table.entries.eraseIdx index :=
  ⟨_, if_pos h, rfl⟩

inductive DukRequest
  | pause
  | resume
  | stepInto
  | stepOver
  | stepOut
  | addBreak (filename : Bytes) (line : UInt32)
  | delBreak (index : UInt32)
  | getLocals
  deriving DecidableEq, Repr

/-- `duk__debug_process_message` up to the handler, for the commands of the debugger. -/
def readRequest : Parser UInt8 DukRequest := do
  let x ← dukDebugReadByte
  if x = req then do
    let cmd ← dukDebugReadInt
    if cmd = 0x12 then pure .pause
    else if cmd = 0x13 then pure .resume
    else if cmd = 0x14 then pure .stepInto
    else if cmd = 0x15 then pure .stepOver
    else if cmd = 0x16 then pure .stepOut
    else if cmd = 0x18 then do
      let filename ← dukDebugReadHstring
      let line ← dukDebugReadInt
      pure (.addBreak filename line.toUInt32)
    else if cmd = 0x19 then do
      let index ← dukDebugReadInt
      pure (.delBreak index.toUInt32)
    else if cmd = 0x1d then pure .getLocals
    else connBroken
  else connBroken

/-- The answer of `duk__debug_handle_add_break` when there is no slot left. -/
def noSpaceForBreakpoint : DukMessage :=
  .error 2 (ascii ['n', 'o', ' ', 's', 'p', 'a', 'c', 'e', ' ', 'f', 'o', 'r', ' ', 'b', 'r', 'e',
    'a', 'k', 'p', 'o', 'i', 'n', 't'])

/-- The answer of `duk__debug_handle_del_break` to an index that is not in use. -/
def invalidBreakpointIndex : DukMessage :=
  .error 3 (ascii ['i', 'n', 'v', 'a', 'l', 'i', 'd', ' ', 'b', 'r', 'e', 'a', 'k', 'p', 'o', 'i',
    'n', 't', ' ', 'i', 'n', 'd', 'e', 'x'])

/-- The handlers of the requests. What GetLocals sends depends on the program that is
being debugged. -/
def handle (locals : List (Bytes × DukTval)) (table : BreakpointTable) :
    DukRequest → DukMessage × BreakpointTable
  | .pause | .resume | .stepInto | .stepOver | .stepOut => (.reply .empty, table)
  | .addBreak filename line =>
      match dukDebugAddBreakpoint table ⟨filename, line⟩ with
      | some (index, table') => (.reply (.index (Int32.ofNat index)), table')
      | none => (noSpaceForBreakpoint, table)
  | .delBreak index =>
      match dukDebugRemoveBreakpoint table index.toNat with
      | some table' => (.reply .empty, table')
      | none => (invalidBreakpointIndex, table)
  | .getLocals => (.reply (.locals locals), table)

structure Engine where
  table : BreakpointTable
  skipping : Bool
  input : Bytes
  deriving DecidableEq

/-- One piece of `duk_debug_process_messages`: read a request and answer it, or skip
one dvalue behind a request. -/
def Engine.round (locals : List (Bytes × DukTval)) (e : Engine) :
    Option (List DukMessage × Engine) :=
  if e.skipping then
    (dukDebugSkipDvalue e.input).map fun (eomSeen, rest) =>
      ([], { e with skipping := !eomSeen, input := rest })
  else
    (readRequest e.input).map fun (request, rest) =>
      let (answer, table') := handle locals e.table request
      ([answer], { table := table', skipping := true, input := rest })

def Engine.process (locals : List (Bytes × DukTval)) (e : Engine) (data : Bytes) :
    List DukMessage × Engine :=
  exhaust (Engine.round locals) ((e.input ++ data).length + 1) { e with input := e.input ++ data }

theorem exactFrom_dukDebugReadByte : ExactFrom Set.univ dukDebugReadByte :=
  (exactFrom_satisfy _).mono (Set.subset_univ _)

theorem exact_dukDebugReadBytes (length : ℕ) : Exact (dukDebugReadBytes length) :=
  exactFrom_dukDebugReadByte.exact.count length

theorem exact_dukDebugReadUint32Raw : Exact dukDebugReadUint32Raw :=
  (exact_dukDebugReadBytes 4).bind fun _ => exact_pure _

theorem exact_dukDebugReadUint16Raw : Exact dukDebugReadUint16Raw :=
  (exact_dukDebugReadBytes 2).bind fun _ => exact_pure _

theorem exact_connBroken {α : Type} : Exact (connBroken : Parser UInt8 α) := by
  intro s a r h
  cases h

theorem exact_dukDebugReadInt : Exact dukDebugReadInt :=
  exactFrom_dukDebugReadByte.exact.bind fun _ =>
    (exactFrom_dukDebugReadByte.exact.bind fun _ => exact_pure _).ite <| (exact_pure _).ite <|
      (exact_dukDebugReadUint32Raw.bind fun _ => exact_pure _).ite exact_connBroken

theorem exact_dukDebugReadHstring : Exact dukDebugReadHstring :=
  exactFrom_dukDebugReadByte.exact.bind fun _ => (exact_dukDebugReadBytes _).ite <|
    (exact_dukDebugReadUint16Raw.bind fun _ => exact_dukDebugReadBytes _).ite <|
      (exact_dukDebugReadUint32Raw.bind fun _ => exact_dukDebugReadBytes _).ite exact_connBroken

theorem exactFrom_dukDebugSkipDvalue : ExactFrom Set.univ dukDebugSkipDvalue := by
  have hbyte : ∀ {f : UInt8 → Parser UInt8 Bool}, (∀ x, Exact (f x)) →
      Exact (dukDebugReadByte >>= f) := fun hf => exactFrom_dukDebugReadByte.exact.bind hf
  have hbytes : ∀ n, Exact (dukDebugReadBytes n >>= fun _ => pure false) :=
    fun n => (exact_dukDebugReadBytes n).bind fun _ => exact_pure false
  have hlen : Exact (dukDebugReadByte >>= fun len =>
      dukDebugReadBytes len.toNat >>= fun _ => pure false) := hbyte fun _ => hbytes _
  exact exactFrom_dukDebugReadByte.bind fun _ => (hbyte fun _ => exact_pure _).ite <|
    (exact_pure _).ite <| (hbytes _).ite <| (exact_pure _).ite <| (exact_pure _).ite <|
    (exact_dukDebugReadUint32Raw.bind fun _ => exact_pure _).ite <|
    (exact_dukDebugReadUint32Raw.bind fun _ => hbytes _).ite <|
    (exact_dukDebugReadUint16Raw.bind fun _ => hbytes _).ite <| (exact_pure _).ite <|
    (hbytes 8).ite <| (hbyte fun _ => hlen).ite <| hlen.ite <|
    ((exact_dukDebugReadBytes 2).bind fun _ => hlen).ite exact_connBroken

theorem exactFrom_readRequest : ExactFrom Set.univ readRequest := by
  have hargs : Exact (dukDebugReadHstring >>= fun filename => dukDebugReadInt >>= fun line =>
      pure (DukRequest.addBreak filename line.toUInt32)) :=
    exact_dukDebugReadHstring.bind fun _ => exact_dukDebugReadInt.bind fun _ => exact_pure _
  exact exactFrom_dukDebugReadByte.bind fun _ => (exact_dukDebugReadInt.bind fun _ =>
    (exact_pure _).ite <| (exact_pure _).ite <| (exact_pure _).ite <| (exact_pure _).ite <|
    (exact_pure _).ite <| hargs.ite <|
    (exact_dukDebugReadInt.bind fun _ => exact_pure _).ite <|
    (exact_pure _).ite exact_connBroken).ite exact_connBroken

theorem Engine.length_of_round (locals : List (Bytes × DukTval)) (e : Engine)
    (answers : List DukMessage) (e' : Engine) (h : Engine.round locals e = some (answers, e')) :
    e'.input.length < e.input.length := by
  unfold Engine.round at h
  split_ifs at h with hskip
  · obtain ⟨x, hx, heq⟩ := Option.map_eq_some_iff.mp h
    cases heq
    exact exactFrom_dukDebugSkipDvalue.progress _ _ _ hx
  · obtain ⟨x, hx, heq⟩ := Option.map_eq_some_iff.mp h
    cases heq
    exact exactFrom_readRequest.progress _ _ _ hx

theorem Engine.process_eq_of_exhausts {locals : List (Bytes × DukTval)} {e e' : Engine}
    {data : Bytes} {answers : List DukMessage}
    (h : Exhausts (Engine.round locals) { e with input := e.input ++ data } answers e') :
    Engine.process locals e data = (answers, e') :=
  exhaust_eq_of_exhausts (Engine.length_of_round locals) (Nat.lt_succ_self _) h

end Duktape

end UnifyFramework
