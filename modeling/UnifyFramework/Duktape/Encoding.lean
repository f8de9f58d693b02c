import UnifyFramework.Duktape.Answer

/-!
# Which breakpoint requests are read back

A request of the debugger is one message: the marker, the command, the arguments and
the end of the message. `readMessage` is Duktape on such a message. A file name is
read back if its length fits into the tag, or if the two bytes of the length are
equal, because `CreateAddBreakpointRequest` sends them in the wrong order; the grammar
`DukDebugStr` of the receiver agrees with Duktape on this. A line or an identifier is
read back if it has one of the two integer forms. For any other number the request is
not a message.
-/

namespace UnifyFramework

namespace Duktape

open Parsing Parsing.Parser Debugger

def readMessage : Parser UInt8 DukRequest := do
  let request ← readRequest
  let x ← dukDebugReadByte
  if x = eom then pure request else connBroken

/-- The length Duktape and the grammar read off the two bytes of a file name's length. -/
def swappedSize (size : ℕ) : ℕ := size % 256 * 256 + size / 256

theorem sizeEncodable_iff {size : ℕ} (hlong : ¬ size ≤ 31) (hle : size ≤ 65535) :
    SizeEncodable size ↔ swappedSize size = size := by
  rw [SizeEncodable, swappedSize]
  omega

theorem toNat_sizeBytes {size : ℕ} (hle : size ≤ 65535) :
    (UInt8.ofNat (size % 256)).toNat = size % 256 ∧
      (UInt8.ofNat (size / 256)).toNat = size / 256 :=
  ⟨UInt8.toNat_ofNat_of_lt' (by simp only [UInt8.size]; omega),
    UInt8.toNat_ofNat_of_lt' (by simp only [UInt8.size]; omega)⟩

theorem dukDebugReadHstring_long {size : ℕ} (hlong : ¬ size ≤ 31) (hle : size ≤ 65535)
    (t : Bytes) :
    dukDebugReadHstring (pushFileNameSize size ++ t) =
      dukDebugReadBytes (swappedSize size) t := by
  obtain ⟨hlow, hhigh⟩ := toNat_sizeBytes hle
  have hlen := reads_dukDebugReadUint16Raw (UInt8.ofNat (size % 256)) (UInt8.ofNat (size / 256)) t
  rw [hlow, hhigh] at hlen
  have hsize : (UInt16.ofNat (swappedSize size)).toNat = swappedSize size := by
    rw [swappedSize, UInt16.toNat_ofNat', Nat.mod_eq_of_lt (by omega)]
  rw [pushFileNameSize, if_neg hlong]
  change (dukDebugReadUint16Raw >>= fun len => dukDebugReadBytes len.toNat)
    ([UInt8.ofNat (size % 256), UInt8.ofNat (size / 256)] ++ t) = _
  rw [bind_apply, hlen]
  exact congrArg (fun n => dukDebugReadBytes n t) hsize

theorem lenStrType2_long {size : ℕ} (hlong : ¬ size ≤ 31) (hle : size ≤ 65535) (t : Bytes) :
    lenStrType2 (pushFileNameSize size ++ t) = count anyChar (swappedSize size) t := by
  obtain ⟨hlow, hhigh⟩ := toNat_sizeBytes hle
  have hword : bigWord ([UInt8.ofNat (size % 256), UInt8.ofNat (size / 256)] ++ t) =
      some (swappedSize size, t) := by
    have hread := (reads_count_anyChar [UInt8.ofNat (size % 256), UInt8.ofNat (size / 256)]).bind_pure
      (f := ofBigEndian) t
    have hvalue : ofBigEndian [UInt8.ofNat (size % 256), UInt8.ofNat (size / 256)] =
        swappedSize size := by
      simp only [ofBigEndian, List.foldl_cons, List.foldl_nil, hlow, hhigh, swappedSize]
      omega
    rwa [hvalue] at hread
  rw [pushFileNameSize, if_neg hlong]
  change (bigWord >>= fun len => count anyChar len)
    ([UInt8.ofNat (size % 256), UInt8.ofNat (size / 256)] ++ t) = _
  rw [bind_apply, hword]
  rfl

theorem sizeEncodable_of_read {fileName t r : Bytes} (hle : fileName.length ≤ 65535)
    (h : dukDebugReadHstring (pushFileNameSize fileName.length ++ fileName ++ t) =
      some (fileName, r)) : SizeEncodable fileName.length := by
  by_cases hlong : fileName.length ≤ 31
  · exact Or.inl hlong
  · rw [List.append_assoc, dukDebugReadHstring_long hlong hle] at h
    exact (sizeEncodable_iff hlong hle).mpr (length_of_count h).symm

/-- The grammar of the receiver accepts a file name exactly if its length can be encoded. -/
theorem dukDebugStr_eq_iff {fileName : Bytes} (hle : fileName.length ≤ 65535) (t : Bytes) :
    dukDebugStr (pushFileNameSize fileName.length ++ fileName ++ t) = some (fileName, t) ↔
      SizeEncodable fileName.length := by
  by_cases hshort : fileName.length ≤ 31
  · refine iff_of_true ?_ (Or.inl hshort)
    have hread : Reads dukDebugStr _ fileName := (reads_lenStrType1 hshort).choice_left
    rw [pushFileNameSize, if_pos hshort, show (0x60 : UInt8) + UInt8.ofNat fileName.length =
      UInt8.ofNat (0x60 + fileName.length) from (UInt8.ofNat_add 0x60 _).symm]
    exact hread t
  · rw [sizeEncodable_iff hshort hle, List.append_assoc]
    have hnone : lenStrType1 (pushFileNameSize fileName.length ++ (fileName ++ t)) = none := by
      rw [pushFileNameSize, if_neg hshort]
      exact exactFrom_lenStrType1.first.cons_eq_none (by simp) _
    rw [dukDebugStr, choice_of_right hnone, choice_eq_some_iff, lenStrType2_long hshort hle]
    constructor
    · rintro (h | ⟨_, h⟩)
      · exact (length_of_count h).symm
      · -- the other forms of `DukDebugStr` have other tags
        rw [pushFileNameSize, if_neg hshort] at h
        cases h
    · intro h
      rw [h]
      exact Or.inl (reads_count_anyChar fileName t)

def readLast (f : Int32 → DukRequest) : Parser UInt8 DukRequest := do
  let value ← dukDebugReadInt
  let x ← dukDebugReadByte
  if x = eom then pure (f value) else connBroken

theorem readMessage_addBreak {fileName : Bytes} (h : SizeEncodable fileName.length) (line : Int) :
    readMessage (createAddBreakpointRequest fileName line).frame =
      readLast (fun value => .addBreak fileName value.toUInt32) (pushInt line ++ [eom]) := by
  have hframe : (createAddBreakpointRequest fileName line).frame = [req] ++ ([intShift + 0x18] ++
      (pushFileNameSize fileName.length ++ fileName ++ (pushInt line ++ [eom]))) := by
    simp [createAddBreakpointRequest]
  rw [hframe, readMessage, bind_apply, readRequest_addBreak, (reads_fileName h).bind_append, readLast,
    bind_apply, bind_apply]
  cases dukDebugReadInt (pushInt line ++ [eom]) with
  | none => rfl
  | some x => rfl

theorem readMessage_delBreak (id : Int) :
    readMessage (createRemoveBreakpointRequest id).frame =
      readLast (fun value => .delBreak value.toUInt32) (pushInt id ++ [eom]) := by
  have hframe : (createRemoveBreakpointRequest id).frame =
      [req] ++ ([intShift + 0x19] ++ (pushInt id ++ [eom])) := by
    simp [createRemoveBreakpointRequest]
  rw [hframe, readMessage, bind_apply, readRequest_delBreak, readLast, bind_apply, bind_apply]
  cases dukDebugReadInt (pushInt id ++ [eom]) with
  | none => rfl
  | some x => rfl

/-- Of two bytes, of which the second one is the end of the message, at most a number up to
63 can be read. -/
theorem readLast_pair {f : Int32 → DukRequest} {b : UInt8} {x : DukRequest × Bytes}
    (h : readLast f [b, eom] = some x) : ∃ n : ℕ, n < 64 ∧ x.1 = f (Int32.ofNat n) := by
  obtain ⟨value, m, hvalue, hrest⟩ := (bind_eq_some_iff _ _ _ _ _).mp h
  change dukDebugReadInt ([b] ++ [eom]) = some (value, m) at hvalue
  rw [dukDebugReadInt, (reads_dukDebugReadByte b).bind_append] at hvalue
  split_ifs at hvalue with hlong hshort hword
  · -- the end of the message is taken for the second byte of the number
    have hbyte := (reads_dukDebugReadByte eom).bind_append
      (fun t => (pure (Int32.ofNat ((b.toNat - 0xc0) * 256 + t.toNat)) : Parser UInt8 Int32)) []
    obtain ⟨_, rfl⟩ := Prod.mk.inj (Option.some.inj (hbyte.symm.trans hvalue))
    cases hrest
  · obtain ⟨rfl, rfl⟩ := Prod.mk.inj (Option.some.inj hvalue)
    rw [UInt8.le_iff_toNat_le] at hlong
    simp only [UInt8.reduceToNat] at hlong
    exact ⟨b.toNat - 0x80, by omega, congrArg Prod.fst (Option.some.inj hrest).symm⟩
  · cases hvalue
  · cases hvalue

theorem toUInt32_injective {a b : Int32} (h : a.toUInt32 = b.toUInt32) : a = b := by
  cases a
  cases b
  exact congrArg Int32.ofUInt32 h

/-- A number is read back, with the end of the message behind it, exactly if it can be
encoded. -/
theorem readLast_eq_iff {f : Int32 → DukRequest} (hf : ∀ a b, f a = f b → a = b) (value : Int32) :
    readLast f (pushInt value.toInt ++ [eom]) = some (f value, []) ↔ IntEncodable value.toInt := by
  constructor
  · intro h
    by_contra hnot
    rw [IntEncodable] at hnot
    rw [pushInt] at h
    split_ifs at h with hshort hlong
    · obtain ⟨n, hn, heq⟩ := readLast_pair h
      have hvalue := congrArg Int32.toInt (hf _ _ heq)
      rw [Int32.toInt_ofNat_of_lt (by omega)] at hvalue
      omega
    · omega
    · cases h
  · intro h
    have hvalue : Int32.ofNat value.toInt.toNat = value := by
      rw [← Int32.toInt_inj, Int32.toInt_ofNat_of_lt, Int.toNat_of_nonneg h.1]
      have := h.2
      omega
    have hread := reads_pushInt h
    rw [hvalue] at hread
    rw [readLast, hread.bind_append]
    rfl

theorem addBreak_injective (fileName : Bytes) (a b : Int32)
    (h : DukRequest.addBreak fileName a.toUInt32 = .addBreak fileName b.toUInt32) : a = b :=
  toUInt32_injective (DukRequest.addBreak.inj h).2

theorem delBreak_injective (a b : Int32)
    (h : DukRequest.delBreak a.toUInt32 = .delBreak b.toUInt32) : a = b :=
  toUInt32_injective (DukRequest.delBreak.inj h)

/-- Whatever is read of the line, the file name must have been read back. -/
theorem sizeEncodable_of_readMessage {fileName r : Bytes} {line : Int} {x : UInt32}
    (hle : fileName.length ≤ 65535)
    (h : readMessage (createAddBreakpointRequest fileName line).frame =
      some (.addBreak fileName x, r)) : SizeEncodable fileName.length := by
  have hframe : (createAddBreakpointRequest fileName line).frame = [req] ++ ([intShift + 0x18] ++
      (pushFileNameSize fileName.length ++ fileName ++ (pushInt line ++ [eom]))) := by
    simp [createAddBreakpointRequest]
  obtain ⟨request, m, hrequest, hend⟩ := (bind_eq_some_iff _ _ _ _ _).mp h
  rw [hframe, readRequest_addBreak] at hrequest
  obtain ⟨filename, m₁, hfilename, hline⟩ := (bind_eq_some_iff _ _ _ _ _).mp hrequest
  obtain ⟨value, m₂, _, hpure⟩ := (bind_eq_some_iff _ _ _ _ _).mp hline
  obtain ⟨rfl, rfl⟩ := Prod.mk.inj (Option.some.inj hpure)
  obtain ⟨y, m₃, _, hlast⟩ := (bind_eq_some_iff _ _ _ _ _).mp hend
  split_ifs at hlast
  · obtain ⟨hsame, _⟩ := Prod.mk.inj (Option.some.inj hlast)
    obtain ⟨rfl, _⟩ := DukRequest.addBreak.inj hsame
    exact sizeEncodable_of_read hle hfilename
  · cases hlast

/-- An AddBreakpoint request with a line that has an integer form is read back, by Duktape
and as far as the file name goes by the grammar of the receiver, exactly if the length of
the file name can be encoded. -/
theorem addBreakpoint_read_back_iff (fileName : Bytes) (line : Int32)
    (hname : fileName.length ≤ 65535) (hline : 0 ≤ line.toInt ∧ line.toInt ≤ 16383) :
    (readMessage (createAddBreakpointRequest fileName line.toInt).frame =
        some (.addBreak fileName line.toUInt32, []) ↔ SizeEncodable fileName.length) ∧
      (dukDebugStr (pushFileNameSize fileName.length ++ fileName) = some (fileName, []) ↔
        SizeEncodable fileName.length) := by
  refine ⟨⟨sizeEncodable_of_readMessage hname, fun h => ?_⟩, ?_⟩
  · rw [readMessage_addBreak h]
    exact (readLast_eq_iff (addBreak_injective fileName) line).mpr hline
  · have hstr := dukDebugStr_eq_iff hname []
    rwa [List.append_nil] at hstr

/-- A breakpoint in `a.js`, on a line whose number takes two bytes. -/
theorem addBreakpoint_read_back_short :
    readMessage (createAddBreakpointRequest [0x61, 0x2e, 0x6a, 0x73] 300).frame =
        some (.addBreak [0x61, 0x2e, 0x6a, 0x73] 300, []) ∧
      dukDebugStr (pushFileNameSize 4 ++ [0x61, 0x2e, 0x6a, 0x73]) =
        some ([0x61, 0x2e, 0x6a, 0x73], []) :=
  have h := addBreakpoint_read_back_iff [0x61, 0x2e, 0x6a, 0x73] 300 (by decide) (by decide)
  ⟨h.1.mpr (by decide), h.2.mpr (by decide)⟩

/-- With 32 bytes in the file name Duktape waits for the bytes of a name of length 8192. -/
theorem addBreakpoint_not_read_back_long :
    readMessage (createAddBreakpointRequest (List.replicate 32 0x61) 1).frame = none ∧
      dukDebugStr (pushFileNameSize 32 ++ List.replicate 32 0x61) = none := by
  decide +kernel

/-- A breakpoint request with a file name of at most 31 bytes is one message that is read
back exactly if the line, or the identifier, has an integer form. -/
theorem breakpoint_requests_read_back_iff (fileName : Bytes) (line id : Int32)
    (hname : fileName.length ≤ 31) :
    (readMessage (createAddBreakpointRequest fileName line.toInt).frame =
        some (.addBreak fileName line.toUInt32, []) ↔
      0 ≤ line.toInt ∧ line.toInt ≤ 16383) ∧
    (readMessage (createRemoveBreakpointRequest id.toInt).frame =
        some (.delBreak id.toUInt32, []) ↔ 0 ≤ id.toInt ∧ id.toInt ≤ 16383) := by
  constructor
  · rw [readMessage_addBreak (Or.inl hname)]
    exact readLast_eq_iff (addBreak_injective fileName) line
  · rw [readMessage_delBreak]
    exact readLast_eq_iff delBreak_injective id

theorem breakpoint_requests_read_back_short :
    readMessage (createAddBreakpointRequest [0x61] 300).frame =
        some (.addBreak [0x61] 300, []) ∧
      readMessage (createRemoveBreakpointRequest 2).frame = some (.delBreak 2, []) :=
  have h := breakpoint_requests_read_back_iff [0x61] 300 2 (by decide)
  ⟨h.1.mpr (by decide), h.2.mpr (by decide)⟩

/-- The line 20000 is left out of the request, so that it ends where Duktape expects a
number, and for the identifier -1 the tag of a string is sent. -/
theorem breakpoint_requests_not_read_back :
    (createAddBreakpointRequest [0x61] 20000).frame = [req, intShift + 0x18, 0x61, 0x61, eom] ∧
      readMessage (createAddBreakpointRequest [0x61] 20000).frame = none ∧
      (createRemoveBreakpointRequest (-1)).frame = [req, intShift + 0x19, 0x7f, eom] ∧
      readMessage (createRemoveBreakpointRequest (-1)).frame = none := by
  decide

end Duktape

end UnifyFramework
