import UnifyFramework.Leveldb.LogLayout

/-!
# Reading a log that ends anywhere

A log that was being written when the process ended is a log cut at some byte. From it the
reader gets exactly the physical records that are completely there, and from these exactly the
records all of whose fragments are there. It reports nothing, because a cut is not an error: the
writer may have ended in the middle of a record.
-/

namespace UnifyFramework

namespace Leveldb

variable {crc32c : Crc32c} {offset n : ℕ} {p : Physical} {ps qs : List Physical} {data : Slice}

structure Stands (offset : ℕ) (content : Slice) (r : LogReader) : Prop where
  joined : r.buffer ++ r.file = content
  buffered : r.buffer.length = min (kBlockSize - offset) content.length
  eof : r.eof = decide (content.length < kBlockSize - offset)

theorem stands_new (file : Slice) : Stands kBlockSize file (.new file) where
  joined := rfl
  buffered := by simp [LogReader.new]
  eof := by simp [LogReader.new]

theorem stands_refill {content : Slice} {r : LogReader} (hfile : r.file = content) :
    Stands 0 content r.refill where
  joined := by rw [LogReader.refill, List.take_append_drop, hfile]
  buffered := by rw [LogReader.refill, hfile, List.length_take, Nat.sub_zero]
  eof := by
    rw [LogReader.refill, hfile, List.length_take, Nat.sub_zero, decide_eq_decide]
    omega

variable {r r' : LogReader} {content : Slice}

theorem Stands.take_buffer (h : Stands offset content r) :
    r.buffer = content.take (kBlockSize - offset) := by
  have htake : content.take r.buffer.length = r.buffer := by
    rw [← h.joined, List.take_left]
  rw [← htake, h.buffered]
  rcases Nat.le_total (kBlockSize - offset) content.length with hle | hle
  · rw [Nat.min_eq_left hle]
  · rw [Nat.min_eq_right hle, List.take_length, List.take_of_length_le hle]

/-- Where a header does not fit, reading goes on with the next block. -/
theorem readPhysicalRecord_refill (hbuffer : r.buffer.length < kHeaderSize)
    (heof : r.eof = false) :
    r.readPhysicalRecord crc32c = r.refill.readPhysicalRecord crc32c := by
  rw [LogReader.readPhysicalRecord, if_pos hbuffer, heof, if_neg Bool.false_ne_true,
    LogReader.readPhysicalRecord]
  by_cases hshort : r.refill.buffer.length < kHeaderSize
  · have heof' : r.refill.eof = true := by
      have hblock : r.refill.buffer.length < kBlockSize :=
        hshort.trans kHeaderSize_lt_kBlockSize
      exact decide_eq_true hblock
    rw [if_pos hshort, if_pos hshort, if_pos heof']
  · rw [if_neg hshort, if_neg hshort]

theorem length_of_header {length : ℕ} (h : length < 2 ^ 16) :
    (UInt8.ofNat (length &&& 0xff)).toNat ||| (UInt8.ofNat (length >>> 8)).toNat <<< 8 =
      length := by
  have hlow : length &&& 0xff = length % 2 ^ 8 := Nat.and_two_pow_sub_one_eq_mod length 8
  have hlow' : (UInt8.ofNat (length % 2 ^ 8)).toNat = length % 2 ^ 8 := by
    rw [UInt8.toNat_ofNat', Nat.mod_mod]
  have hhigh : (UInt8.ofNat (length >>> 8)).toNat = length / 2 ^ 8 := by
    rw [UInt8.toNat_ofNat', Nat.shiftRight_eq_div_pow]
    omega
  rw [hlow, hlow', hhigh, Nat.shiftLeft_eq, Nat.or_comm, Nat.mul_comm,
    ← Nat.two_pow_add_eq_or_of_lt (Nat.mod_lt _ (by decide)), Nat.div_add_mod]

theorem code_ne_zero (t : RecordType) : t.code.toNat ≠ 0 := by
  cases t <;> decide

theorem parsePhysicalRecord_of_append {tail : Slice} (hfits : p.2.length < 2 ^ 16)
    (hbuffer : r.buffer = physicalBytes crc32c p ++ tail) :
    r.parsePhysicalRecord crc32c = ((p.1.code.toNat, p.2), { r with buffer := tail }) := by
  obtain ⟨t, fragment⟩ := p
  have hcrc : BitVec.ofNat 32 (decodeFixed32 r.buffer) =
      Crc32c.mask (crc32c.extend (crc32c.value [t.code]) fragment) := by
    rw [hbuffer, physicalBytes, LogWriter.header, List.append_assoc, List.append_assoc,
      decodeFixed32_encodeFixed32 (BitVec.isLt _), BitVec.ofNat_toNat, BitVec.setWidth_eq]
  have hvalue : crc32c.value (t.code :: fragment) =
      crc32c.extend (crc32c.value [t.code]) fragment :=
    crc32c.extend_append 0 [t.code] fragment
  have hdrop : r.buffer.drop 6 = t.code :: (fragment ++ tail) := by
    rw [hbuffer]
    rfl
  have hdrop' : r.buffer.drop kHeaderSize = fragment ++ tail := by
    rw [hbuffer]
    rfl
  have htype : (r.buffer.getD 6 0).toNat = t.code.toNat := by
    rw [hbuffer]
    rfl
  have hlength : (r.buffer.getD 4 0).toNat ||| (r.buffer.getD 5 0).toNat <<< 8 =
      fragment.length := by
    rw [hbuffer]
    exact length_of_header hfits
  have hlong : ¬ r.buffer.length < kHeaderSize + fragment.length := by
    rw [hbuffer, List.length_append, length_physicalBytes]
    dsimp only
    omega
  rw [LogReader.parsePhysicalRecord]
  simp only [htype, hlength, if_neg hlong, code_ne_zero, false_and, if_false]
  rw [hdrop, Nat.add_comm 1, List.take_succ_cons, List.take_left, hvalue, hcrc,
    Crc32c.unmask_mask, if_neg (fun h => h rfl), hdrop', List.take_left, ← List.drop_drop, hdrop',
    List.drop_left]

theorem readPhysicalRecord_in_block {rest : Slice}
    (h : Stands offset (physicalBytes crc32c p ++ rest) r)
    (hfits : offset + (kHeaderSize + p.2.length) ≤ kBlockSize) :
    ∃ r', r.readPhysicalRecord crc32c = ((p.1.code.toNat, p.2), r') ∧
      Stands (offset + (kHeaderSize + p.2.length)) rest r' ∧ r'.reports = r.reports := by
  have hlength : (physicalBytes crc32c p).length = kHeaderSize + p.2.length :=
    length_physicalBytes p
  have hbuffer : r.buffer = physicalBytes crc32c p ++
      rest.take (kBlockSize - offset - (kHeaderSize + p.2.length)) := by
    rw [h.take_buffer, List.take_append, hlength, List.take_of_length_le (by omega)]
  have hheader : ¬ r.buffer.length < kHeaderSize := by
    rw [hbuffer, List.length_append, hlength]
    omega
  have hshort : p.2.length < 2 ^ 16 := by
    have : kHeaderSize + kBlockSize < 2 ^ 16 := by decide
    omega
  refine ⟨{ r with buffer := rest.take (kBlockSize - offset - (kHeaderSize + p.2.length)) }, ?_,
    ⟨?_, ?_, ?_⟩, rfl⟩
  · rw [LogReader.readPhysicalRecord, if_neg hheader,
      parsePhysicalRecord_of_append hshort hbuffer]
  · have hjoined := h.joined
    rw [hbuffer, List.append_assoc] at hjoined
    exact List.append_cancel_left hjoined
  · rw [List.length_take, Nat.sub_sub]
  · rw [h.eof, List.length_append, hlength, decide_eq_decide]
    omega

/-- A physical record of which the file has only a part. -/
theorem readPhysicalRecord_cut_in_block (h : Stands offset ((physicalBytes crc32c p).take n) r)
    (hfits : offset + (kHeaderSize + p.2.length) ≤ kBlockSize)
    (hn : n < kHeaderSize + p.2.length) :
    ∃ r', r.readPhysicalRecord crc32c = ((kEof, []), r') ∧ r'.reports = r.reports := by
  have hlength : ((physicalBytes crc32c p).take n).length = n := by
    rw [List.length_take, length_physicalBytes]
    omega
  have heof : r.eof = true := by
    rw [h.eof, hlength, decide_eq_true_iff]
    omega
  have hbuffer : r.buffer = (physicalBytes crc32c p).take n := by
    rw [h.take_buffer, List.take_of_length_le (by omega)]
  refine ⟨{ r with buffer := [] }, ?_, rfl⟩
  by_cases hheader : r.buffer.length < kHeaderSize
  · rw [LogReader.readPhysicalRecord, if_pos hheader, if_pos heof]
  · -- The header is there, and says that the record is longer.
    rw [hbuffer, hlength, Nat.not_lt] at hheader
    have hbyte : ∀ i < kHeaderSize, r.buffer.getD i 0 = (physicalBytes crc32c p).getD i 0 := by
      intro i hi
      rw [hbuffer, List.getD_eq_getElem?_getD, List.getElem?_take_of_lt (by omega),
        List.getD_eq_getElem?_getD]
    have hlen : (r.buffer.getD 4 0).toNat ||| (r.buffer.getD 5 0).toNat <<< 8 = p.2.length := by
      rw [hbyte 4 (by decide), hbyte 5 (by decide)]
      refine length_of_header ?_
      have : kHeaderSize + kBlockSize < 2 ^ 16 := by decide
      omega
    rw [LogReader.readPhysicalRecord, hbuffer, hlength, if_neg (Nat.not_lt.mpr hheader),
      LogReader.parsePhysicalRecord]
    simp only [hlen]
    rw [hbuffer, hlength, if_pos hn, heof, if_neg Bool.noConfusion]

theorem Stands.file_of_append {a b : Slice} (h : Stands offset (a ++ b) r)
    (ha : a.length = kBlockSize - offset) : r.buffer = a ∧ r.file = b ∧ r.eof = false := by
  have hbuffer : r.buffer = a := by rw [h.take_buffer, ← ha, List.take_left]
  have hjoined := h.joined
  rw [hbuffer] at hjoined
  refine ⟨hbuffer, List.append_cancel_left hjoined, ?_⟩
  rw [h.eof, List.length_append, decide_eq_false_iff_not]
  omega

theorem readPhysicalRecord_complete {rest : Slice}
    (h : Stands offset (trailer offset ++ (physicalBytes crc32c p ++ rest)) r)
    (hfits : offsetAfter offset p ≤ kBlockSize) :
    ∃ r', r.readPhysicalRecord crc32c = ((p.1.code.toNat, p.2), r') ∧
      Stands (offsetAfter offset p) rest r' ∧ r'.reports = r.reports := by
  rw [offsetAfter, startOffset] at hfits ⊢
  rw [trailer] at h
  by_cases htrailer : kBlockSize - offset < kHeaderSize
  · rw [if_pos htrailer] at hfits h ⊢
    obtain ⟨hbuffer, hfile, heof⟩ := h.file_of_append List.length_replicate
    have hshort : r.buffer.length < kHeaderSize := by
      rw [hbuffer, List.length_replicate]
      exact htrailer
    rw [readPhysicalRecord_refill hshort heof]
    exact readPhysicalRecord_in_block (stands_refill hfile) hfits
  · rw [if_neg htrailer] at hfits h ⊢
    exact readPhysicalRecord_in_block h hfits

theorem readPhysicalRecord_cut
    (h : Stands offset ((trailer offset ++ physicalBytes crc32c p).take n) r)
    (hfits : offsetAfter offset p ≤ kBlockSize)
    (hn : n < (trailer offset ++ physicalBytes crc32c p).length) :
    ∃ r', r.readPhysicalRecord crc32c = ((kEof, []), r') ∧ r'.reports = r.reports := by
  rw [offsetAfter, startOffset] at hfits
  rw [trailer] at h hn
  by_cases htrailer : kBlockSize - offset < kHeaderSize
  · rw [if_pos htrailer] at hfits h hn
    rw [List.length_append, List.length_replicate, length_physicalBytes] at hn
    by_cases hcut : n < kBlockSize - offset
    · have hlength : ((List.replicate (kBlockSize - offset) 0 ++
          physicalBytes crc32c p).take n).length = n := by
        rw [List.length_take, List.length_append, List.length_replicate]
        omega
      have hshort : r.buffer.length < kHeaderSize := by
        rw [h.buffered, hlength]
        omega
      have heof : r.eof = true := by
        rw [h.eof, hlength, decide_eq_true_iff]
        exact hcut
      refine ⟨{ r with buffer := [] }, ?_, rfl⟩
      rw [LogReader.readPhysicalRecord, if_pos hshort, if_pos heof]
    · rw [List.take_append, List.take_of_length_le (by rw [List.length_replicate]; omega)] at h
      obtain ⟨hbuffer, hfile, heof⟩ := h.file_of_append List.length_replicate
      have hshort : r.buffer.length < kHeaderSize := by
        rw [hbuffer, List.length_replicate]
        exact htrailer
      rw [readPhysicalRecord_refill hshort heof]
      refine readPhysicalRecord_cut_in_block (stands_refill hfile) hfits ?_
      rw [List.length_replicate]
      omega
  · rw [if_neg htrailer] at hfits h hn
    rw [List.nil_append, length_physicalBytes] at hn
    exact readPhysicalRecord_cut_in_block h hfits hn

variable (crc32c) in
theorem readPhysicalRecord_nil (h : Stands offset [] r) :
    ∃ r', r.readPhysicalRecord crc32c = ((kEof, []), r') ∧ r'.reports = r.reports := by
  obtain ⟨hbuffer, hfile⟩ := List.append_eq_nil_iff.mp h.joined
  have hshort : r.buffer.length < kHeaderSize := by
    rw [hbuffer]
    decide
  cases heof : r.eof with
  | true =>
      refine ⟨{ r with buffer := [] }, ?_, rfl⟩
      rw [LogReader.readPhysicalRecord, if_pos hshort, if_pos heof]
  | false =>
      have hshort' : r.refill.buffer.length < kHeaderSize := by
        rw [LogReader.refill, hfile, List.take_nil]
        exact Nat.zero_lt_succ _
      refine ⟨{ r.refill with buffer := [] }, ?_, rfl⟩
      rw [LogReader.readPhysicalRecord, if_pos hshort, heof, if_neg Bool.false_ne_true,
        if_pos hshort']

variable (crc32c) in
/-- From here on the reader gets the physical records and then the end of the file, without
anything to report. -/
inductive Yields : LogReader → List Physical → Prop
  | eof {r r' : LogReader} (hread : r.readPhysicalRecord crc32c = ((kEof, []), r'))
      (hreports : r'.reports = r.reports) : Yields r []
  | record {r r' : LogReader} {p : Physical} {ps : List Physical}
      (hread : r.readPhysicalRecord crc32c = ((p.1.code.toNat, p.2), r'))
      (hreports : r'.reports = r.reports) (hsize : r'.size < r.size) (hrest : Yields r' ps) :
      Yields r (p :: ps)

theorem Stands.size (h : Stands offset content r) : r.size = content.length := by
  rw [LogReader.size, ← List.length_append, h.joined]

theorem Stands.size_lt {offset' : ℕ} {before : Slice} (h' : Stands offset' content r')
    (h : Stands offset (before ++ (physicalBytes crc32c p ++ content)) r) : r'.size < r.size := by
  have hpos : 0 < kHeaderSize := by decide
  rw [h'.size, h.size, List.length_append, List.length_append, length_physicalBytes]
  omega

/-- Of a log that ends anywhere, the reader gets the physical records that are completely
there. -/
theorem yields_layout (hfits : Fits offset ps)
    (h : Stands offset ((layout crc32c offset ps).take n) r) :
    ∃ k ≤ ps.length, Yields crc32c r (ps.take k) ∧
      (layout crc32c offset (ps.take k)).length ≤ n ∧
      (k < ps.length → n < (layout crc32c offset (ps.take (k + 1))).length) := by
  induction ps generalizing offset n r with
  | nil =>
      rw [layout, List.take_nil] at h
      obtain ⟨r', hread, hreports⟩ := readPhysicalRecord_nil crc32c h
      exact ⟨0, le_rfl, .eof hread hreports, Nat.zero_le _, fun hlt => absurd hlt (Nat.lt_irrefl 0)⟩
  | cons p ps ih =>
      rw [layout] at h
      by_cases hn : n < (trailer offset ++ physicalBytes crc32c p).length
      · rw [← List.append_assoc, List.take_append_of_le_length hn.le] at h
        obtain ⟨r', hread, hreports⟩ := readPhysicalRecord_cut h hfits.1 hn
        refine ⟨0, Nat.zero_le _, .eof hread hreports, Nat.zero_le _, fun _ => ?_⟩
        rw [List.take_succ_cons, layout, List.take_zero, layout, List.append_nil]
        exact hn
      · rw [← List.append_assoc, List.take_append, List.take_of_length_le (Nat.not_lt.mp hn),
          List.append_assoc] at h
        obtain ⟨r', hread, hstands, hreports⟩ := readPhysicalRecord_complete h hfits.1
        obtain ⟨k, hk, hyields, hle, hlt⟩ := ih hfits.2 hstands
        refine ⟨k + 1, Nat.succ_le_succ hk,
          .record hread hreports (hstands.size_lt h) hyields, ?_, fun hlt' => ?_⟩
        · rw [List.take_succ_cons, layout, ← List.append_assoc, List.length_append]
          omega
        · have := hlt (Nat.lt_of_succ_lt_succ hlt')
          rw [List.take_succ_cons, layout, ← List.append_assoc, List.length_append]
          omega

open LogReader

theorem readRecordLoop_full {fragment : Slice}
    (hread : r.readPhysicalRecord crc32c = ((RecordType.full.code.toNat, fragment), r')) :
    readRecordLoop crc32c (n + 1) false [] r = some (some fragment, r') := by
  rw [readRecordLoop, hread]
  rfl

theorem readRecordLoop_first {fragment : Slice}
    (hread : r.readPhysicalRecord crc32c = ((RecordType.first.code.toNat, fragment), r')) :
    readRecordLoop crc32c (n + 1) false [] r = readRecordLoop crc32c n true fragment r' := by
  rw [readRecordLoop, hread]
  rfl

theorem readRecordLoop_middle {scratch fragment : Slice}
    (hread : r.readPhysicalRecord crc32c = ((RecordType.middle.code.toNat, fragment), r')) :
    readRecordLoop crc32c (n + 1) true scratch r =
      readRecordLoop crc32c n true (scratch ++ fragment) r' := by
  rw [readRecordLoop, hread]
  rfl

theorem readRecordLoop_last {scratch fragment : Slice}
    (hread : r.readPhysicalRecord crc32c = ((RecordType.last.code.toNat, fragment), r')) :
    readRecordLoop crc32c (n + 1) true scratch r = some (some (scratch ++ fragment), r') := by
  rw [readRecordLoop, hread]
  rfl

theorem readRecordLoop_eof {inFragmentedRecord : Bool} {scratch : Slice}
    (hread : r.readPhysicalRecord crc32c = ((kEof, []), r')) :
    readRecordLoop crc32c (n + 1) inFragmentedRecord scratch r = some (none, r') := by
  rw [readRecordLoop, hread]
  rfl

theorem readRecordLoop_continues {scratch : Slice} (h : Continues data ps)
    (hyields : Yields crc32c r (ps ++ qs)) (hn : r.size < n) :
    ∃ r', readRecordLoop crc32c n true scratch r = some (some (scratch ++ data), r') ∧
      Yields crc32c r' qs ∧ r'.reports = r.reports ∧ r'.size < r.size := by
  induction h generalizing n r scratch with
  | last data =>
      obtain ⟨n, rfl⟩ := Nat.exists_eq_add_one_of_ne_zero (Nat.ne_of_gt (Nat.zero_lt_of_lt hn))
      cases hyields with
      | record hread hreports hsize hrest =>
          exact ⟨_, readRecordLoop_last hread, hrest, hreports, hsize⟩
  | middle fragment h ih =>
      obtain ⟨n, rfl⟩ := Nat.exists_eq_add_one_of_ne_zero (Nat.ne_of_gt (Nat.zero_lt_of_lt hn))
      cases hyields with
      | record hread hreports hsize hrest =>
          obtain ⟨r', hloop, hrest', hreports', hsize'⟩ :=
            ih hrest (Nat.lt_of_lt_of_le hsize (Nat.le_of_lt_succ hn))
          refine ⟨r', ?_, hrest', hreports'.trans hreports, hsize'.trans hsize⟩
          rw [readRecordLoop_middle hread, hloop, List.append_assoc]

theorem readRecordLoop_cut {scratch : Slice} {k : ℕ} (h : Continues data ps) (hk : k < ps.length)
    (hyields : Yields crc32c r (ps.take k)) (hn : r.size < n) :
    ∃ r', readRecordLoop crc32c n true scratch r = some (none, r') ∧ r'.reports = r.reports := by
  induction h generalizing n r scratch k with
  | last data =>
      obtain ⟨n, rfl⟩ := Nat.exists_eq_add_one_of_ne_zero (Nat.ne_of_gt (Nat.zero_lt_of_lt hn))
      obtain rfl : k = 0 := by simpa using hk
      cases hyields with
      | eof hread hreports => exact ⟨_, readRecordLoop_eof hread, hreports⟩
  | middle fragment h ih =>
      obtain ⟨n, rfl⟩ := Nat.exists_eq_add_one_of_ne_zero (Nat.ne_of_gt (Nat.zero_lt_of_lt hn))
      cases k with
      | zero =>
          cases hyields with
          | eof hread hreports => exact ⟨_, readRecordLoop_eof hread, hreports⟩
      | succ k =>
          cases hyields with
          | record hread hreports hsize hrest =>
              obtain ⟨r', hloop, hreports'⟩ := ih (Nat.lt_of_succ_lt_succ hk) hrest
                (Nat.lt_of_lt_of_le hsize (Nat.le_of_lt_succ hn))
              exact ⟨r', (readRecordLoop_middle hread).trans hloop, hreports'.trans hreports⟩

theorem readRecord_complete (h : Fragments data ps) (hyields : Yields crc32c r (ps ++ qs)) :
    ∃ r', r.readRecord crc32c = some (some data, r') ∧ Yields crc32c r' qs ∧
      r'.reports = r.reports ∧ r'.size < r.size := by
  cases h with
  | full data =>
      cases hyields with
      | record hread hreports hsize hrest =>
          exact ⟨_, readRecordLoop_full hread, hrest, hreports, hsize⟩
  | first fragment h =>
      cases hyields with
      | record hread hreports hsize hrest =>
          obtain ⟨r', hloop, hrest', hreports', hsize'⟩ := readRecordLoop_continues h hrest hsize
          exact ⟨r', (readRecordLoop_first hread).trans hloop, hrest', hreports'.trans hreports,
            hsize'.trans hsize⟩

theorem readRecord_nil (hyields : Yields crc32c r []) :
    ∃ r', r.readRecord crc32c = some (none, r') ∧ r'.reports = r.reports := by
  cases hyields with
  | eof hread hreports => exact ⟨_, readRecordLoop_eof hread, hreports⟩

theorem readRecord_cut {k : ℕ} (h : Fragments data ps) (hk : k < ps.length)
    (hyields : Yields crc32c r (ps.take k)) :
    ∃ r', r.readRecord crc32c = some (none, r') ∧ r'.reports = r.reports := by
  cases k with
  | zero => exact readRecord_nil hyields
  | succ k =>
      cases h with
      | full data => simp at hk
      | first fragment h =>
          cases hyields with
          | record hread hreports hsize hrest =>
              obtain ⟨r', hloop, hreports'⟩ :=
                readRecordLoop_cut h (Nat.lt_of_succ_lt_succ hk) hrest hsize
              exact ⟨r', (readRecordLoop_first hread).trans hloop, hreports'.trans hreports⟩

namespace LogReader

variable (crc32c) in
/-- The loop around `readRecord` that readers of a log run: up to the end of the file, with as
many rounds as there are bytes. -/
def readRecords : ℕ → LogReader → Option (List Slice × LogReader)
  | 0, _ => none
  | n + 1, r =>
      match r.readRecord crc32c with
      | none => none
      | some (none, r') => some ([], r')
      | some (some record, r') => (readRecords n r').map fun q => (record :: q.1, q.2)

end LogReader

variable (crc32c) in
/-- From here on the reader gets the records and then the end of the file, without anything to
report. -/
inductive Delivers : LogReader → List Slice → Prop
  | eof {r r' : LogReader} (hread : r.readRecord crc32c = some (none, r'))
      (hreports : r'.reports = r.reports) : Delivers r []
  | record {r r' : LogReader} {record : Slice} {records : List Slice}
      (hread : r.readRecord crc32c = some (some record, r'))
      (hreports : r'.reports = r.reports) (hsize : r'.size < r.size)
      (hrest : Delivers r' records) : Delivers r (record :: records)

theorem Delivers.readRecords {records : List Slice} (h : Delivers crc32c r records)
    (hn : r.size < n) :
    ∃ r', readRecords crc32c n r = some (records, r') ∧ r'.reports = r.reports := by
  induction h generalizing n with
  | eof hread hreports =>
      obtain ⟨n, rfl⟩ := Nat.exists_eq_add_one_of_ne_zero (Nat.ne_of_gt (Nat.zero_lt_of_lt hn))
      refine ⟨_, ?_, hreports⟩
      rw [LogReader.readRecords, hread]
  | record hread hreports hsize hrest ih =>
      obtain ⟨n, rfl⟩ := Nat.exists_eq_add_one_of_ne_zero (Nat.ne_of_gt (Nat.zero_lt_of_lt hn))
      obtain ⟨r', hrecords, hreports'⟩ := ih (Nat.lt_of_lt_of_le hsize (Nat.le_of_lt_succ hn))
      refine ⟨r', ?_, hreports'.trans hreports⟩
      simp only [LogReader.readRecords, hread, hrecords, Option.map_some]

/-- Of the physical records of a log, cut behind some of them, the reader makes the records whose
fragments are all there. -/
theorem delivers_of_yields {records : List Slice} {pss : List (List Physical)} {k : ℕ}
    (h : List.Forall₂ Fragments records pss) (hyields : Yields crc32c r (pss.flatten.take k)) :
    ∃ j ≤ records.length, Delivers crc32c r (records.take j) ∧
      (pss.take j).flatten.length ≤ k ∧
      (j < records.length → k < (pss.take (j + 1)).flatten.length) := by
  induction h generalizing k r with
  | nil =>
      rw [List.flatten_nil, List.take_nil] at hyields
      obtain ⟨r', hread, hreports⟩ := readRecord_nil hyields
      exact ⟨0, le_rfl, .eof hread hreports, Nat.zero_le _,
        fun hlt => absurd hlt (Nat.lt_irrefl 0)⟩
  | @cons record ps records pss hps hpss ih =>
      rw [List.flatten_cons] at hyields
      by_cases hk : k < ps.length
      · rw [List.take_append_of_le_length hk.le] at hyields
        obtain ⟨r', hread, hreports⟩ := readRecord_cut hps hk hyields
        refine ⟨0, Nat.zero_le _, .eof hread hreports, Nat.zero_le _, fun _ => ?_⟩
        rw [List.take_succ_cons, List.take_zero, List.flatten_cons, List.flatten_nil,
          List.append_nil]
        exact hk
      · rw [List.take_append, List.take_of_length_le (Nat.not_lt.mp hk)] at hyields
        obtain ⟨r', hread, hyields', hreports, hsize⟩ := readRecord_complete hps hyields
        obtain ⟨j, hj, hdelivers, hle, hlt⟩ := ih hyields'
        refine ⟨j + 1, Nat.succ_le_succ hj, .record hread hreports hsize hdelivers, ?_, ?_⟩
        · rw [List.take_succ_cons, List.flatten_cons, List.length_append]
          omega
        · intro hj'
          have := hlt (Nat.lt_of_succ_lt_succ hj')
          rw [List.take_succ_cons, List.flatten_cons, List.length_append]
          omega

variable (crc32c)

theorem layout_kBlockSize (ps : List Physical) :
    layout crc32c kBlockSize ps = layout crc32c 0 ps := by
  cases ps <;> rfl

theorem fits_kBlockSize (ps : List Physical) : Fits kBlockSize ps = Fits 0 ps := by
  cases ps <;> rfl

theorem length_layout_le_of_isPrefix (offset : ℕ) (h : ps <+: qs) :
    (layout crc32c offset ps).length ≤ (layout crc32c offset qs).length := by
  obtain ⟨rest, rfl⟩ := h
  rw [layout_append, List.length_append]
  exact Nat.le_add_right _ _

theorem flatten_take_isPrefix (pss : List (List Physical)) (j : ℕ) :
    (pss.take j).flatten <+: pss.flatten :=
  ⟨(pss.drop j).flatten, by rw [← List.flatten_append, List.take_append_drop]⟩

/-- The first `k` of the records, and no more of them, end within the first `n` bytes of their
log. -/
structure EndWithin (records : List Slice) (n k : ℕ) : Prop where
  le_length : k ≤ records.length
  within : ∃ w, LogWriter.new.addRecords crc32c (records.take k) = some w ∧ w.dest.length ≤ n
  beyond : k < records.length →
    ∃ w, LogWriter.new.addRecords crc32c (records.take (k + 1)) = some w ∧ n < w.dest.length

/-- A log does not get shorter. -/
theorem length_dest_le {records : List Slice} {i j : ℕ} (hij : i ≤ j) {w w' : LogWriter}
    (hi : LogWriter.new.addRecords crc32c (records.take i) = some w)
    (hj : LogWriter.new.addRecords crc32c (records.take j) = some w') :
    w.dest.length ≤ w'.dest.length := by
  obtain ⟨pss, -, -, hadd⟩ := addRecords_layout crc32c (w := LogWriter.new) (Nat.zero_le _) records
  obtain rfl := Option.some.inj ((hadd i).symm.trans hi)
  obtain rfl := Option.some.inj ((hadd j).symm.trans hj)
  refine length_layout_le_of_isPrefix crc32c 0 ?_
  have hprefix := flatten_take_isPrefix (pss.take j) i
  rwa [List.take_take, min_eq_left hij] at hprefix

/-- Records that end within the bytes are among those that are counted. -/
theorem EndWithin.le {records : List Slice} {n k j : ℕ} (h : EndWithin crc32c records n k)
    (hj : j ≤ records.length) {w : LogWriter}
    (hw : LogWriter.new.addRecords crc32c (records.take j) = some w) (hn : w.dest.length ≤ n) :
    j ≤ k := by
  by_contra hlt
  have hkj : k < j := Nat.lt_of_not_le hlt
  obtain ⟨w', hw', hbeyond⟩ := h.beyond (hkj.trans_le hj)
  have hle := length_dest_le crc32c hkj hw' hw
  omega

/-- A log cut at any byte delivers the records that end before the cut. -/
theorem delivers_take (records : List Slice) (n : ℕ) :
    ∃ w k, LogWriter.new.addRecords crc32c records = some w ∧ EndWithin crc32c records n k ∧
      Delivers crc32c (.new (w.dest.take n)) (records.take k) := by
  obtain ⟨pss, hpss, hfits, hadd⟩ :=
    addRecords_layout crc32c (w := LogWriter.new) (Nat.zero_le _) records
  have hstands := stands_new ((layout crc32c kBlockSize pss.flatten).take n)
  obtain ⟨k, hk, hyields, hle, hlt⟩ := yields_layout ((fits_kBlockSize _).mpr hfits) hstands
  obtain ⟨j, hj, hdelivers, hle', hlt'⟩ := delivers_of_yields hpss hyields
  have hall := hadd records.length
  rw [List.take_length, hpss.length_eq, List.take_length] at hall
  rw [layout_kBlockSize] at hdelivers hle hlt
  refine ⟨_, j, hall, ⟨hj, ⟨_, hadd j, ?_⟩, fun hj' => ⟨_, hadd (j + 1), ?_⟩⟩, hdelivers⟩
  · have hprefix : (pss.take j).flatten <+: pss.flatten.take k :=
      List.prefix_take_iff.mpr ⟨flatten_take_isPrefix pss j, hle'⟩
    exact (length_layout_le_of_isPrefix crc32c 0 hprefix).trans hle
  · have hnext := flatten_take_isPrefix pss (j + 1)
    have hk' : k < (pss.take (j + 1)).flatten.length := hlt' hj'
    have hprefix : pss.flatten.take (k + 1) <+: (pss.take (j + 1)).flatten :=
      List.prefix_of_prefix_length_le (List.take_prefix _ _) hnext
        ((List.length_take_le _ _).trans hk')
    exact Nat.lt_of_lt_of_le (hlt (Nat.lt_of_lt_of_le hk' hnext.length_le))
      (length_layout_le_of_isPrefix crc32c 0 hprefix)

/-- A log that ends at any byte is read back as the records that are completely in it, and
nothing is reported. -/
theorem readRecords_take (records : List Slice) (n : ℕ) :
    ∃ w k r, LogWriter.new.addRecords crc32c records = some w ∧
      EndWithin crc32c records n k ∧
      readRecords crc32c (n + 1) (.new (w.dest.take n)) = some (records.take k, r) ∧
      r.reports = [] := by
  obtain ⟨w, k, hadd, hwithin, hdelivers⟩ := delivers_take crc32c records n
  have hsize : (LogReader.new (w.dest.take n)).size ≤ n := by
    rw [(stands_new _).size]
    exact List.length_take_le _ _
  obtain ⟨r, hread, hreports⟩ := hdelivers.readRecords (Nat.lt_succ_of_le hsize)
  exact ⟨w, k, r, hadd, hwithin, hread, hreports⟩

end Leveldb

end UnifyFramework
