import UnifyFramework.Leveldb.Log

/-!
# The layout of a log

A log is a layout of physical records: each lies in one block, and trailers stand where no
header fits. The writer lays out the fragments of each record, one full fragment or a first one,
middle ones and a last one.
-/

namespace UnifyFramework

namespace Leveldb

theorem kHeaderSize_lt_kBlockSize : kHeaderSize < kBlockSize := by decide

abbrev Physical := RecordType × Slice

def startOffset (offset : ℕ) : ℕ := if kBlockSize - offset < kHeaderSize then 0 else offset

def trailer (offset : ℕ) : Slice :=
  if kBlockSize - offset < kHeaderSize then List.replicate (kBlockSize - offset) 0 else []

def offsetAfter (offset : ℕ) (p : Physical) : ℕ :=
  startOffset offset + (kHeaderSize + p.2.length)

def endOffset : ℕ → List Physical → ℕ
  | offset, [] => offset
  | offset, p :: ps => endOffset (offsetAfter offset p) ps

def Fits : ℕ → List Physical → Prop
  | _, [] => True
  | offset, p :: ps => offsetAfter offset p ≤ kBlockSize ∧ Fits (offsetAfter offset p) ps

inductive Continues : Slice → List Physical → Prop
  | last (data : Slice) : Continues data [(.last, data)]
  | middle (fragment : Slice) {data : Slice} {ps : List Physical} (h : Continues data ps) :
      Continues (fragment ++ data) ((.middle, fragment) :: ps)

inductive Fragments : Slice → List Physical → Prop
  | full (data : Slice) : Fragments data [(.full, data)]
  | first (fragment : Slice) {data : Slice} {ps : List Physical} (h : Continues data ps) :
      Fragments (fragment ++ data) ((.first, fragment) :: ps)

variable (crc32c : Crc32c)

def physicalBytes (p : Physical) : Slice := LogWriter.header crc32c p.1 p.2 ++ p.2

def layout : ℕ → List Physical → Slice
  | _, [] => []
  | offset, p :: ps =>
      trailer offset ++ (physicalBytes crc32c p ++ layout (offsetAfter offset p) ps)

variable {crc32c} {offset n : ℕ} {p : Physical} {ps qs : List Physical} {data : Slice}
  {w w' : LogWriter}

theorem length_header (t : RecordType) (fragment : Slice) :
    (LogWriter.header crc32c t fragment).length = kHeaderSize := by
  simp [LogWriter.header, encodeFixed32, kHeaderSize]

theorem length_physicalBytes (p : Physical) :
    (physicalBytes crc32c p).length = kHeaderSize + p.2.length := by
  rw [physicalBytes, List.length_append, length_header]

theorem endOffset_append (offset : ℕ) (ps qs : List Physical) :
    endOffset offset (ps ++ qs) = endOffset (endOffset offset ps) qs := by
  induction ps generalizing offset with
  | nil => rfl
  | cons p ps ih => exact ih _

theorem layout_append (offset : ℕ) (ps qs : List Physical) :
    layout crc32c offset (ps ++ qs) =
      layout crc32c offset ps ++ layout crc32c (endOffset offset ps) qs := by
  induction ps generalizing offset with
  | nil => rfl
  | cons p ps ih =>
      rw [List.cons_append, layout, layout, endOffset, ih, List.append_assoc, List.append_assoc]

theorem fits_append : Fits offset (ps ++ qs) ↔ Fits offset ps ∧ Fits (endOffset offset ps) qs := by
  induction ps generalizing offset with
  | nil => simp [Fits, endOffset]
  | cons p ps ih => simp only [List.cons_append, Fits, endOffset, ih, and_assoc]

theorem endOffset_le_of_fits (h : Fits offset ps) (hoffset : offset ≤ kBlockSize) :
    endOffset offset ps ≤ kBlockSize := by
  induction ps generalizing offset with
  | nil => exact hoffset
  | cons p ps ih => exact ih h.2 h.1

theorem startOffset_le (offset : ℕ) (h : offset ≤ kBlockSize) :
    startOffset offset + kHeaderSize ≤ kBlockSize := by
  rw [startOffset]
  have := kHeaderSize_lt_kBlockSize
  split <;> omega

theorem switchBlock_eq (w : LogWriter) :
    w.switchBlock = ⟨w.dest ++ trailer w.blockOffset, startOffset w.blockOffset⟩ := by
  rw [LogWriter.switchBlock, trailer, startOffset]
  split
  · rfl
  · rw [List.append_nil]

theorem emit_switchBlock (w : LogWriter) (p : Physical) :
    w.switchBlock.emitPhysicalRecord crc32c p.1 p.2 =
      ⟨w.dest ++ layout crc32c w.blockOffset [p], offsetAfter w.blockOffset p⟩ := by
  rw [switchBlock_eq, LogWriter.emitPhysicalRecord, layout, layout, List.append_nil,
    physicalBytes, List.append_assoc, List.append_assoc]
  rfl

def FragmentsFrom : Bool → Slice → List Physical → Prop
  | true => Fragments
  | false => Continues

theorem fragmentLength_le (data : Slice) (w : LogWriter) :
    w.fragmentLength data ≤ data.length ∧
      w.fragmentLength data ≤ kBlockSize - w.blockOffset - kHeaderSize := by
  rw [LogWriter.fragmentLength]
  split <;> omega

theorem addRecordLoop_layout {begins : Bool} (hoffset : w.blockOffset ≤ kBlockSize)
    (hloop : LogWriter.addRecordLoop crc32c n begins data w = some w') :
    ∃ ps, FragmentsFrom begins data ps ∧ Fits w.blockOffset ps ∧
      w' = ⟨w.dest ++ layout crc32c w.blockOffset ps, endOffset w.blockOffset ps⟩ := by
  induction n generalizing begins data w with
  | zero => cases hloop
  | succ n ih =>
      obtain ⟨hlength, havail⟩ := fragmentLength_le data w.switchBlock
      rw [LogWriter.addRecordLoop] at hloop
      generalize w.switchBlock.fragmentLength data = length at hloop hlength havail
      have hstart := startOffset_le w.blockOffset hoffset
      have hfits : ∀ t, offsetAfter w.blockOffset (t, data.take length) ≤ kBlockSize := by
        intro t
        rw [switchBlock_eq] at havail
        rw [offsetAfter, List.length_take_of_le hlength]
        dsimp only at havail
        omega
      rw [emit_switchBlock w (_, data.take length)] at hloop
      split at hloop
      · rename_i hmore
        have hends : decide (data.length = length) = false := decide_eq_false (by omega)
        rw [hends] at hloop
        obtain ⟨ps, hps, hfits', rfl⟩ := ih (hfits _) hloop
        refine ⟨(LogWriter.fragmentType begins false, data.take length) :: ps, ?_,
          ⟨hfits _, hfits'⟩, ?_⟩
        · cases begins with
          | true =>
              have hfirst := Fragments.first (data.take length) hps
              rwa [List.take_append_drop] at hfirst
          | false =>
              have hmiddle := Continues.middle (data.take length) hps
              rwa [List.take_append_drop] at hmiddle
        · exact congrArg₂ LogWriter.mk ((List.append_assoc _ _ _).trans
            (congrArg (w.dest ++ ·) (layout_append w.blockOffset [_] ps).symm)) rfl
      · rename_i hdone
        have hall : length = data.length := by omega
        obtain rfl := Option.some.inj hloop
        rw [hall, decide_eq_true rfl, List.take_length]
        refine ⟨[(_, data)], ?_, ⟨?_, trivial⟩, rfl⟩
        · cases begins with
          | true => exact .full data
          | false => exact .last data
        · have := hfits (LogWriter.fragmentType begins true)
          rwa [hall, List.take_length] at this

/-- A fragment that does not end the record fills its block. -/
theorem offsetAfter_of_more (hoffset : w.blockOffset ≤ kBlockSize)
    (hmore : 0 < data.length - w.switchBlock.fragmentLength data) (t : RecordType) :
    offsetAfter w.blockOffset (t, data.take (w.switchBlock.fragmentLength data)) = kBlockSize := by
  have hlength : w.switchBlock.fragmentLength data =
      kBlockSize - startOffset w.blockOffset - kHeaderSize := by
    rw [switchBlock_eq, LogWriter.fragmentLength] at hmore ⊢
    dsimp only at hmore ⊢
    split at hmore
    · omega
    · rename_i hlt
      rw [if_neg hlt]
  have hstart := startOffset_le w.blockOffset hoffset
  rw [offsetAfter, List.length_take_of_le (fragmentLength_le data w.switchBlock).1, hlength]
  omega

theorem addRecordLoop_isSome_of_full {begins : Bool} (hoffset : w.blockOffset = kBlockSize)
    (hn : data.length < n) : (LogWriter.addRecordLoop crc32c n begins data w).isSome := by
  induction n generalizing begins data w with
  | zero => omega
  | succ n ih =>
      rw [LogWriter.addRecordLoop, emit_switchBlock w (_, _)]
      split
      · rename_i hmore
        refine ih (offsetAfter_of_more hoffset.le hmore _) ?_
        -- A block of its own takes at least one byte.
        have hlength : 0 < w.switchBlock.fragmentLength data := by
          have hfull := offsetAfter_of_more hoffset.le hmore .full
          rw [offsetAfter, List.length_take_of_le (fragmentLength_le data w.switchBlock).1,
            startOffset, hoffset, Nat.sub_self, if_pos (by decide)] at hfull
          have := kHeaderSize_lt_kBlockSize
          omega
        rw [List.length_drop]
        omega
      · rfl

variable (crc32c)

/-- The rounds of `AddRecord` are enough: after the first one, every round takes something. -/
theorem addRecord_isSome (hoffset : w.blockOffset ≤ kBlockSize) (data : Slice) :
    (w.addRecord crc32c data).isSome := by
  rw [LogWriter.addRecord, LogWriter.addRecordLoop, emit_switchBlock w (_, _)]
  split
  · rename_i hmore
    refine addRecordLoop_isSome_of_full (offsetAfter_of_more hoffset hmore _) ?_
    rw [List.length_drop]
    omega
  · rfl

theorem addRecord_layout (hoffset : w.blockOffset ≤ kBlockSize) (data : Slice) :
    ∃ ps, Fragments data ps ∧ Fits w.blockOffset ps ∧
      w.addRecord crc32c data =
        some ⟨w.dest ++ layout crc32c w.blockOffset ps, endOffset w.blockOffset ps⟩ := by
  obtain ⟨w', hw'⟩ := Option.isSome_iff_exists.mp (addRecord_isSome crc32c hoffset data)
  obtain ⟨ps, hps, hfits, rfl⟩ := addRecordLoop_layout hoffset hw'
  exact ⟨ps, hps, hfits, hw'⟩

theorem addRecords_layout (hoffset : w.blockOffset ≤ kBlockSize) (records : List Slice) :
    ∃ pss, List.Forall₂ Fragments records pss ∧ Fits w.blockOffset pss.flatten ∧
      ∀ k, w.addRecords crc32c (records.take k) =
        some ⟨w.dest ++ layout crc32c w.blockOffset (pss.take k).flatten,
          endOffset w.blockOffset (pss.take k).flatten⟩ := by
  induction records generalizing w with
  | nil => exact ⟨[], .nil, trivial, fun k => by simp [LogWriter.addRecords, layout, endOffset]⟩
  | cons data records ih =>
      obtain ⟨ps, hps, hfits, hadd⟩ := addRecord_layout crc32c hoffset data
      have hoffset' := endOffset_le_of_fits hfits hoffset
      obtain ⟨pss, hpss, hfits', hadds⟩ :=
        ih (w := ⟨w.dest ++ layout crc32c w.blockOffset ps, endOffset w.blockOffset ps⟩) hoffset'
      refine ⟨ps :: pss, .cons hps hpss, ?_, fun k => ?_⟩
      · rw [List.flatten_cons]
        exact fits_append.mpr ⟨hfits, hfits'⟩
      · cases k with
        | zero => simp [LogWriter.addRecords, layout, endOffset]
        | succ k =>
            rw [List.take_succ_cons, List.take_succ_cons, LogWriter.addRecords, hadd,
              Option.bind_some, hadds, List.flatten_cons, layout_append, endOffset_append,
              List.append_assoc]

end Leveldb

end UnifyFramework
