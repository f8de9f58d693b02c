import UnifyFramework.Debugger.Decoding
import UnifyFramework.Debugger.Request
import UnifyFramework.Duktape.Read

/-!
# What Duktape answers to the requests of the debugger

The frames of the `Create*Request` functions as Duktape reads them. A breakpoint
request is read back with its arguments if the line or the identifier has one of the
two integer forms, and if the length of the file name either fits into the tag or is
the same with its two bytes exchanged. On a frame that is read, Duktape gives one
answer and is ready for the next request.
-/

namespace UnifyFramework

namespace Duktape

open Parsing Parsing.Parser Transition Debugger

def SizeEncodable (size : ℕ) : Prop := size ≤ 31 ∨ size ≤ 65535 ∧ size % 256 = size / 256

def IntEncodable (value : Int) : Prop := 0 ≤ value ∧ value ≤ 16383

instance (size : ℕ) : Decidable (SizeEncodable size) := inferInstanceAs (Decidable (_ ∨ _))

instance (value : Int) : Decidable (IntEncodable value) := inferInstanceAs (Decidable (_ ∧ _))

theorem reads_dukDebugReadByte (x : UInt8) : Reads dukDebugReadByte [x] x := reads_satisfy rfl

theorem reads_dukDebugReadBytes (data : Bytes) :
    Reads (dukDebugReadBytes data.length) data data :=
  reads_count_satisfy fun _ _ => rfl

theorem toNat_add_ofNat {base : UInt8} {n : ℕ} (h : base.toNat + n < 256) :
    (base + UInt8.ofNat n).toNat = base.toNat + n := by
  rw [UInt8.toNat_add, UInt8.toNat_ofNat', Nat.mod_eq_of_lt (by omega : n < 2 ^ 8),
    Nat.mod_eq_of_lt h]

theorem reads_pushInt {value : Int} (h : IntEncodable value) :
    Reads dukDebugReadInt (pushInt value) (Int32.ofNat value.toNat) := by
  obtain ⟨hlo, hhi⟩ := h
  unfold pushInt
  split_ifs with hshort
  · have hx : ((0x80 : UInt8) + UInt8.ofNat (value % 256).toNat).toNat = 0x80 + value.toNat := by
      rw [toNat_add_ofNat (by simp only [UInt8.reduceToNat]; omega)]
      simp only [UInt8.reduceToNat]
      omega
    refine (reads_dukDebugReadByte _).bind (v := []) ?_
    rw [if_neg, if_pos, hx, Nat.add_sub_cancel_left]
    · exact reads_pure _
    · rw [UInt8.le_iff_toNat_le, hx]
      simp
    · rw [UInt8.le_iff_toNat_le, hx]
      simp only [UInt8.reduceToNat]
      omega
  · have hx : ((0xc0 : UInt8) + UInt8.ofNat (value / 256).toNat).toNat =
        0xc0 + (value / 256).toNat :=
      toNat_add_ofNat (by simp only [UInt8.reduceToNat]; omega)
    have ht : (UInt8.ofNat (value % 256).toNat).toNat = (value % 256).toNat :=
      UInt8.toNat_ofNat_of_lt' (by simp only [UInt8.size]; omega)
    have hvalue : value.toNat = (((0xc0 : UInt8) + UInt8.ofNat (value / 256).toNat).toNat -
        0xc0) * 256 + (UInt8.ofNat (value % 256).toNat).toNat := by
      rw [hx, ht]
      omega
    refine (reads_dukDebugReadByte _).bind (v := [_]) ?_
    rw [if_pos, hvalue]
    · exact (reads_dukDebugReadByte _).bind_pure (f := fun t => Int32.ofNat (_ + t.toNat))
    · rw [UInt8.le_iff_toNat_le, hx]
      simp

theorem reads_dukDebugReadUint16Raw (a b : UInt8) :
    Reads dukDebugReadUint16Raw [a, b] (UInt16.ofNat (a.toNat * 256 + b.toNat)) := by
  have hread := (reads_dukDebugReadBytes [a, b]).bind_pure
    (f := fun buf => UInt16.ofNat (ofBigEndian buf))
  have hvalue : ofBigEndian [a, b] = a.toNat * 256 + b.toNat := by simp [ofBigEndian]
  rwa [hvalue] at hread

theorem reads_fileName {fileName : Bytes} (h : SizeEncodable fileName.length) :
    Reads dukDebugReadHstring (pushFileNameSize fileName.length ++ fileName) fileName := by
  unfold pushFileNameSize
  split_ifs with hshort
  · have hx : ((0x60 : UInt8) + UInt8.ofNat fileName.length).toNat = 0x60 + fileName.length :=
      toNat_add_ofNat (by simp only [UInt8.reduceToNat]; omega)
    refine (reads_dukDebugReadByte _).bind ?_
    rw [if_pos, hx, Nat.add_sub_cancel_left]
    · exact reads_dukDebugReadBytes fileName
    · rw [UInt8.le_iff_toNat_le, UInt8.le_iff_toNat_le, hx]
      simp only [UInt8.reduceToNat]
      omega
  · obtain ⟨hle, hbytes⟩ := h.resolve_left hshort
    have hlow : (UInt8.ofNat (fileName.length % 256)).toNat = fileName.length % 256 :=
      UInt8.toNat_ofNat_of_lt' (by simp only [UInt8.size]; omega)
    have hhigh : (UInt8.ofNat (fileName.length / 256)).toNat = fileName.length / 256 :=
      UInt8.toNat_ofNat_of_lt' (by simp only [UInt8.size]; omega)
    have hlen := reads_dukDebugReadUint16Raw (UInt8.ofNat (fileName.length % 256))
      (UInt8.ofNat (fileName.length / 256))
    rw [hlow, hhigh, show fileName.length % 256 * 256 + fileName.length / 256 =
      fileName.length by omega] at hlen
    refine (reads_dukDebugReadByte 0x12).bind ?_
    rw [if_neg (by decide), if_pos rfl]
    refine hlen.bind ?_
    rw [UInt16.toNat_ofNat', Nat.mod_eq_of_lt (by omega)]
    exact reads_dukDebugReadBytes fileName

/-- Behind the marker and the command of an AddBreak request its arguments are read. -/
theorem readRequest_addBreak (t : Bytes) :
    readRequest ([req] ++ ([intShift + 0x18] ++ t)) =
      (dukDebugReadHstring >>= fun filename => dukDebugReadInt >>= fun line =>
        pure (DukRequest.addBreak filename line.toUInt32)) t := by
  have hcmd : Reads dukDebugReadInt [intShift + 0x18] 0x18 :=
    reads_pushInt (by decide : IntEncodable 0x18)
  rw [readRequest, (reads_dukDebugReadByte req).bind_append, if_pos rfl, hcmd.bind_append,
    if_neg (by decide), if_neg (by decide), if_neg (by decide), if_neg (by decide),
    if_neg (by decide), if_pos rfl]

/-- Behind the marker and the command of a DelBreak request its argument is read. -/
theorem readRequest_delBreak (t : Bytes) :
    readRequest ([req] ++ ([intShift + 0x19] ++ t)) =
      (dukDebugReadInt >>= fun index => pure (DukRequest.delBreak index.toUInt32)) t := by
  have hcmd : Reads dukDebugReadInt [intShift + 0x19] 0x19 :=
    reads_pushInt (by decide : IntEncodable 0x19)
  rw [readRequest, (reads_dukDebugReadByte req).bind_append, if_pos rfl, hcmd.bind_append,
    if_neg (by decide), if_neg (by decide), if_neg (by decide), if_neg (by decide),
    if_neg (by decide), if_neg (by decide), if_pos rfl]

theorem reads_addBreakpoint {fileName : Bytes} {line : Int}
    (hname : SizeEncodable fileName.length) (hline : IntEncodable line) :
    Reads readRequest
      ([req] ++ ([intShift + 0x18] ++
        ((pushFileNameSize fileName.length ++ fileName) ++ pushInt line)))
      (.addBreak fileName (UInt32.ofNat line.toNat)) := by
  intro t
  have hargs := (reads_fileName hname).bind
    (f := fun filename => dukDebugReadInt >>= fun line =>
      pure (DukRequest.addBreak filename line.toUInt32))
    ((reads_pushInt hline).bind_pure (f := fun line => DukRequest.addBreak fileName line.toUInt32))
  rw [← Int32.toUInt32_ofNat', List.append_assoc, List.append_assoc, readRequest_addBreak]
  exact hargs t

theorem reads_removeBreakpoint {id : Int} (hid : IntEncodable id) :
    Reads readRequest ([req] ++ ([intShift + 0x19] ++ pushInt id))
      (.delBreak (UInt32.ofNat id.toNat)) := by
  intro t
  have hargs := (reads_pushInt hid).bind_pure (f := fun index => DukRequest.delBreak index.toUInt32)
  rw [← Int32.toUInt32_ofNat', List.append_assoc, List.append_assoc, readRequest_delBreak]
  exact hargs t

/-- A request that is read is answered, the rest of its frame is skipped, and Duktape
is ready for the next request. -/
theorem process_request (locals : List (Bytes × DukTval)) (table : BreakpointTable) {u : Bytes}
    {request : DukRequest} (hread : Reads readRequest u request) :
    Engine.process locals ⟨table, false, []⟩ (u ++ [eom]) =
      ([(handle locals table request).1], ⟨(handle locals table request).2, false, []⟩) := by
  have hround : Engine.round locals ⟨table, false, u ++ [eom]⟩ =
      some ([(handle locals table request).1], ⟨(handle locals table request).2, true, [eom]⟩) := by
    simp only [Engine.round, hread [eom], Option.map_some]
    rfl
  have hskip : Engine.round locals ⟨(handle locals table request).2, true, [eom]⟩ =
      some ([], ⟨(handle locals table request).2, false, []⟩) := rfl
  have hstop : Engine.round locals ⟨(handle locals table request).2, false, []⟩ = none := rfl
  exact Engine.process_eq_of_exhausts
    (Exhausts.more hround (Exhausts.more hskip (Exhausts.stop hstop)))

theorem process_addBreakpoint (locals : List (Bytes × DukTval)) {table : BreakpointTable}
    {fileName : Bytes} {line : Int} (hname : SizeEncodable fileName.length)
    (hline : IntEncodable line) (hslot : table.entries.length < maxBreakpoints) :
    ∃ table', table'.entries = table.entries ++ [⟨fileName, UInt32.ofNat line.toNat⟩] ∧
      Engine.process locals ⟨table, false, []⟩ (createAddBreakpointRequest fileName line).frame =
        ([.reply (.index (Int32.ofNat table.entries.length))], ⟨table', false, []⟩) := by
  obtain ⟨table', hadd, hentries⟩ :=
    dukDebugAddBreakpoint_of_lt ⟨fileName, UInt32.ofNat line.toNat⟩ hslot
  have hprocess := process_request locals table (reads_addBreakpoint hname hline)
  simp only [handle, hadd] at hprocess
  refine ⟨table', hentries, ?_⟩
  simpa [createAddBreakpointRequest] using hprocess

theorem process_removeBreakpoint (locals : List (Bytes × DukTval)) {table : BreakpointTable}
    {id : ℕ} (hid : IntEncodable id) (hindex : id < table.entries.length) :
    ∃ table', table'.entries = table.entries.eraseIdx id ∧
      Engine.process locals ⟨table, false, []⟩ (createRemoveBreakpointRequest id).frame =
        ([.reply .empty], ⟨table', false, []⟩) := by
  obtain ⟨table', hremove, hentries⟩ := dukDebugRemoveBreakpoint_of_lt hindex
  have hprocess := process_request locals table (reads_removeBreakpoint hid)
  have hcast : (UInt32.ofNat (id : Int).toNat).toNat = id := by
    have hle : (id : Int) ≤ 16383 := hid.2
    rw [Int.toNat_natCast, UInt32.toNat_ofNat', Nat.mod_eq_of_lt (by omega)]
  simp only [handle, hcast, hremove] at hprocess
  refine ⟨table', hentries, ?_⟩
  simpa [createRemoveBreakpointRequest] using hprocess

end Duktape

end UnifyFramework
