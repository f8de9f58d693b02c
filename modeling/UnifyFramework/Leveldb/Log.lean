import UnifyFramework.Leveldb.Coding

/-!
# The log

Every write of the database goes to a log before it goes to memory. A log is a sequence of
blocks of one size. A record that does not fit into what is left of a block is written in
fragments, each behind a header with a checksum, the length and the kind of the fragment; where
not even a header fits, the block is filled with zeros. The reader takes the log block by block,
puts the fragments together again, and reports what it has to drop. It treats the end of the log
as the place where the writer has died, at whatever byte this is.

Appending to the file does not fail here, and the reader starts at the beginning of the file.
-/

namespace UnifyFramework

namespace Leveldb

/-- `crc32c::Extend`, which can go on where it stopped. -/
structure Crc32c where
  extend : BitVec 32 → Slice → BitVec 32
  extend_append : ∀ crc a b, extend crc (a ++ b) = extend (extend crc a) b

namespace Crc32c

def value (crc32c : Crc32c) (data : Slice) : BitVec 32 := crc32c.extend 0 data

/-- One byte of the checksum that `crc32c.cc` has in tables, bit by bit. -/
def extendByte (crc : BitVec 32) (byte : UInt8) : BitVec 32 :=
  (List.range 8).foldl (fun crc _ => crc >>> 1 ^^^ if crc[0] then 0x82f63b78 else 0)
    (crc ^^^ BitVec.ofNat 32 byte.toNat)

def castagnoli : Crc32c where
  extend crc data := ~~~ data.foldl extendByte (~~~ crc)
  extend_append crc a b := by rw [List.foldl_append, BitVec.not_not]

-- As in `crc32c_test.cc`.
example : castagnoli.value (List.replicate 32 0) = 0x8a9136aa := by decide +kernel

def maskDelta : BitVec 32 := 0xa282ead8

def mask (crc : BitVec 32) : BitVec 32 := (crc >>> 15 ||| crc <<< 17) + maskDelta

def unmask (maskedCrc : BitVec 32) : BitVec 32 :=
  let rot := maskedCrc - maskDelta
  rot >>> 17 ||| rot <<< 15

theorem unmask_mask (crc : BitVec 32) : unmask (mask crc) = crc := by
  have hrot : mask crc - maskDelta = crc >>> 15 ||| crc <<< 17 := BitVec.add_sub_cancel _ _
  rw [unmask, hrot]
  apply BitVec.eq_of_getLsbD_eq
  intro i hi
  simp only [BitVec.getLsbD_or, BitVec.getLsbD_ushiftRight, BitVec.getLsbD_shiftLeft]
  by_cases hlow : i < 15
  · have hshift : 17 + i < 32 := by omega
    have hzero : crc.getLsbD (15 + (17 + i)) = false := BitVec.getLsbD_of_ge _ _ (by omega)
    simp [hlow, hshift, hzero]
  · have hshift : ¬ 17 + i < 32 := by omega
    have hback : 15 + (i - 15) = i := by omega
    have hzero : crc.getLsbD (15 + (17 + i)) = false := BitVec.getLsbD_of_ge _ _ (by omega)
    have hsmall : i - 15 < 17 := by omega
    simp [hlow, hshift, hback, hzero, hi, hsmall]

end Crc32c

def kBlockSize : ℕ := 32768

/-- Checksum, length and type. -/
def kHeaderSize : ℕ := 4 + 2 + 1

inductive RecordType
  | full
  | first
  | middle
  | last
  deriving DecidableEq, Repr

namespace RecordType

/-- The byte in the header; zero stands for preallocated files. -/
def code : RecordType → UInt8
  | full => 1
  | first => 2
  | middle => 3
  | last => 4

end RecordType

structure LogWriter where
  dest : Slice
  blockOffset : ℕ
  deriving DecidableEq

namespace LogWriter

variable (crc32c : Crc32c)

def header (t : RecordType) (fragment : Slice) : Slice :=
  encodeFixed32 (Crc32c.mask (crc32c.extend (crc32c.value [t.code]) fragment)).toNat ++
    [.ofNat (fragment.length &&& 0xff), .ofNat (fragment.length >>> 8), t.code]

def emitPhysicalRecord (t : RecordType) (fragment : Slice) (w : LogWriter) : LogWriter where
  dest := w.dest ++ header crc32c t fragment ++ fragment
  blockOffset := w.blockOffset + (kHeaderSize + fragment.length)

/-- The trailer is filled where no header fits into the block any more. -/
def switchBlock (w : LogWriter) : LogWriter :=
  let leftover := kBlockSize - w.blockOffset
  if leftover < kHeaderSize then ⟨w.dest ++ List.replicate leftover 0, 0⟩ else w

/-- The kind of a fragment, from whether it begins and ends the record. -/
def fragmentType : Bool → Bool → RecordType
  | true, true => .full
  | true, false => .first
  | false, true => .last
  | false, false => .middle

def fragmentLength (data : Slice) (w : LogWriter) : ℕ :=
  let avail := kBlockSize - w.blockOffset - kHeaderSize
  if data.length < avail then data.length else avail

/-- The loop of `AddRecord`, with a bound on its rounds. -/
def addRecordLoop : ℕ → Bool → Slice → LogWriter → Option LogWriter
  | 0, _, _, _ => none
  | n + 1, begins, data, w =>
      let length := w.switchBlock.fragmentLength data
      let w := w.switchBlock.emitPhysicalRecord crc32c
        (fragmentType begins (data.length = length)) (data.take length)
      if 0 < data.length - length then addRecordLoop n false (data.drop length) w else some w

/-- A fragment may be empty only if it is the first one. -/
def addRecord (slice : Slice) (w : LogWriter) : Option LogWriter :=
  addRecordLoop crc32c (slice.length + 2) true slice w

def addRecords : List Slice → LogWriter → Option LogWriter
  | [], w => some w
  | slice :: slices, w => (w.addRecord crc32c slice).bind (addRecords slices)

def new : LogWriter := ⟨[], 0⟩

end LogWriter

def kEof : ℕ := 5

def kBadRecord : ℕ := 6

/-- The reader, with what it has not read from the file, and the drops it has reported: the
number of bytes and the reason. -/
structure LogReader where
  file : Slice
  buffer : Slice
  eof : Bool
  reports : List (ℕ × String)
  deriving DecidableEq

namespace LogReader

def new (file : Slice) : LogReader := ⟨file, [], false, []⟩

def reportCorruption (bytes : ℕ) (reason : String) (r : LogReader) : LogReader :=
  { r with reports := r.reports ++ [(bytes, reason)] }

/-- The next block is read; a short read is the end of the file. -/
def refill (r : LogReader) : LogReader :=
  { r with
    file := r.file.drop kBlockSize
    buffer := r.file.take kBlockSize
    eof := (r.file.take kBlockSize).length < kBlockSize }

variable (crc32c : Crc32c)

/-- A physical record at the start of the buffer, which holds a header. -/
def parsePhysicalRecord (r : LogReader) : (ℕ × Slice) × LogReader :=
  let type := (r.buffer.getD 6 0).toNat
  let length := (r.buffer.getD 4 0).toNat ||| (r.buffer.getD 5 0).toNat <<< 8
  let dropSize := r.buffer.length
  if r.buffer.length < kHeaderSize + length then
    if r.eof = false then
      ((kBadRecord, []),
        ({ r with buffer := [] } : LogReader).reportCorruption dropSize "bad record length")
    else ((kEof, []), { r with buffer := [] })
  else if type = 0 ∧ length = 0 then ((kBadRecord, []), { r with buffer := [] })
  else if crc32c.value ((r.buffer.drop 6).take (1 + length)) ≠
      Crc32c.unmask (BitVec.ofNat 32 (decodeFixed32 r.buffer)) then
    ((kBadRecord, []),
      ({ r with buffer := [] } : LogReader).reportCorruption dropSize "checksum mismatch")
  else
    ((type, (r.buffer.drop kHeaderSize).take length),
      { r with buffer := r.buffer.drop (kHeaderSize + length) })

/-- `ReadPhysicalRecord`: the type, which may be `kEof` or `kBadRecord`, and the fragment. A
buffer without a header is followed by the next block, once. -/
def readPhysicalRecord (r : LogReader) : (ℕ × Slice) × LogReader :=
  if r.buffer.length < kHeaderSize then
    if r.eof then ((kEof, []), { r with buffer := [] })
    else if r.refill.buffer.length < kHeaderSize then
      ((kEof, []), { r.refill with buffer := [] })
    else r.refill.parsePhysicalRecord crc32c
  else r.parsePhysicalRecord crc32c

/-- The loop of `ReadRecord`, with a bound on its rounds. -/
def readRecordLoop : ℕ → Bool → Slice → LogReader → Option (Option Slice × LogReader)
  | 0, _, _, _ => none
  | n + 1, inFragmentedRecord, scratch, r =>
      let physical := r.readPhysicalRecord crc32c
      let type := physical.1.1
      let fragment := physical.1.2
      let r := physical.2
      let partly := inFragmentedRecord && !scratch.isEmpty
      if type = RecordType.full.code.toNat then
        some (some fragment,
          if partly then r.reportCorruption scratch.length "partial record without end(1)" else r)
      else if type = RecordType.first.code.toNat then
        readRecordLoop n true fragment
          (if partly then r.reportCorruption scratch.length "partial record without end(2)" else r)
      else if type = RecordType.middle.code.toNat then
        if inFragmentedRecord then readRecordLoop n true (scratch ++ fragment) r
        else
          readRecordLoop n false scratch
            (r.reportCorruption fragment.length "missing start of fragmented record(1)")
      else if type = RecordType.last.code.toNat then
        if inFragmentedRecord then some (some (scratch ++ fragment), r)
        else
          readRecordLoop n false scratch
            (r.reportCorruption fragment.length "missing start of fragmented record(2)")
      else if type = kEof then some (none, r)
      else if type = kBadRecord then
        if inFragmentedRecord then
          readRecordLoop n false [] (r.reportCorruption scratch.length "error in middle of record")
        else readRecordLoop n false scratch r
      else
        readRecordLoop n false []
          (r.reportCorruption (fragment.length + if inFragmentedRecord then scratch.length else 0)
            ("unknown record type " ++ toString type))

def size (r : LogReader) : ℕ := r.buffer.length + r.file.length

/-- `ReadRecord`; there is no record at the end of the file. -/
def readRecord (r : LogReader) : Option (Option Slice × LogReader) :=
  r.readRecordLoop crc32c (r.size + 1) false []

end LogReader

end Leveldb

end UnifyFramework
