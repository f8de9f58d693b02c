import Mathlib.Algebra.Group.Nat.Defs
import UnifyFramework.Leveldb.Coding

/-!
# Batches of updates

A batch is the string that goes into the log: a header with the sequence number of the first
operation and the number of operations, then the operations one after the other. `Iterate` gives
the operations of a batch to a handler; what `Put`, `Delete` and `Append` have put into a batch is
what the handler gets.
-/

namespace UnifyFramework

namespace Leveldb

inductive Status
  | ok
  | corruption (msg : String)
deriving DecidableEq, Repr

/-- The length of the header: eight bytes for the sequence number and four for the count. -/
def kHeader : ℕ := 12

structure WriteBatch where
  rep : Slice
  kHeader_le : kHeader ≤ rep.length

namespace WriteBatch

/-- A batch after `Clear`. -/
def new : WriteBatch := ⟨List.replicate kHeader 0, List.length_replicate.ge⟩

def setContents (contents : Slice) (h : kHeader ≤ contents.length) : WriteBatch := ⟨contents, h⟩

def byteSize (b : WriteBatch) : ℕ := b.rep.length

def count (b : WriteBatch) : ℕ := decodeFixed32 (b.rep.drop 8)

def setCount (n : ℕ) (b : WriteBatch) : WriteBatch where
  rep := b.rep.take 8 ++ encodeFixed32 n ++ b.rep.drop kHeader
  kHeader_le := by
    have := b.kHeader_le
    simp only [kHeader, List.length_append, List.length_take, length_encodeFixed32,
      List.length_drop] at *
    omega

def sequence (b : WriteBatch) : ℕ := decodeFixed64 b.rep

def setSequence (seq : ℕ) (b : WriteBatch) : WriteBatch where
  rep := encodeFixed64 seq ++ b.rep.drop 8
  kHeader_le := by
    have := b.kHeader_le
    simp only [kHeader, List.length_append, length_encodeFixed64, List.length_drop] at *
    omega

/-- What `rep_` gets appended. -/
def extend (b : WriteBatch) (bytes : Slice) : WriteBatch where
  rep := b.rep ++ bytes
  kHeader_le := b.kHeader_le.trans (by simp)

def put (key value : Slice) (b : WriteBatch) : WriteBatch :=
  (b.setCount (b.count + 1)).extend
    (1 :: putLengthPrefixedSlice key ++ putLengthPrefixedSlice value)

def delete (key : Slice) (b : WriteBatch) : WriteBatch :=
  (b.setCount (b.count + 1)).extend (0 :: putLengthPrefixedSlice key)

def append (dst src : WriteBatch) : WriteBatch :=
  (dst.setCount (dst.count + src.count)).extend (src.rep.drop kHeader)

/-- `WriteBatch::Handler`, with what it keeps. -/
structure Handler (σ : Type*) where
  put : Slice → Slice → σ → σ
  delete : Slice → σ → σ

/-- The loop of `Iterate` over the operations, with at most `n` of them to come. -/
def iterateLoop {σ : Type*} (handler : Handler σ) (count : ℕ) :
    ℕ → Slice → ℕ → σ → Option (Status × σ)
  | _, [], found, s =>
      some (if found ≠ count then .corruption "WriteBatch has wrong count" else .ok, s)
  | 0, _ :: _, _, _ => none
  | n + 1, tag :: input, found, s =>
      if tag = 1 then
        match getLengthPrefixedSlice input with
        | none => some (.corruption "bad WriteBatch Put", s)
        | some (key, input) =>
            match getLengthPrefixedSlice input with
            | none => some (.corruption "bad WriteBatch Put", s)
            | some (value, input) =>
                iterateLoop handler count n input (found + 1) (handler.put key value s)
      else if tag = 0 then
        match getLengthPrefixedSlice input with
        | none => some (.corruption "bad WriteBatch Delete", s)
        | some (key, input) =>
            iterateLoop handler count n input (found + 1) (handler.delete key s)
      else some (.corruption "unknown WriteBatch tag", s)

def iterate {σ : Type*} (handler : Handler σ) (b : WriteBatch) (s : σ) : Option (Status × σ) :=
  if b.rep.length < kHeader then some (.corruption "malformed WriteBatch (too small)", s)
  else iterateLoop handler b.count b.rep.length (b.rep.drop kHeader) 0 s

end WriteBatch

inductive Op
  | put (key value : Slice)
  | delete (key : Slice)
deriving DecidableEq, Repr

namespace Op

/-- The lengths fit into the numbers that stand for them. A key is stored with eight more
bytes. -/
def Fits : Op → Prop
  | put key value => key.length + 8 < 2 ^ 32 ∧ value.length < 2 ^ 32
  | delete key => key.length + 8 < 2 ^ 32

instance : DecidablePred Fits
  | put key value => inferInstanceAs (Decidable (key.length + 8 < 2 ^ 32 ∧ value.length < 2 ^ 32))
  | delete key => inferInstanceAs (Decidable (key.length + 8 < 2 ^ 32))

def bytes : Op → Slice
  | put key value => 1 :: putLengthPrefixedSlice key ++ putLengthPrefixedSlice value
  | delete key => 0 :: putLengthPrefixedSlice key

def apply {σ : Type*} (handler : WriteBatch.Handler σ) (s : σ) : Op → σ
  | put key value => handler.put key value s
  | delete key => handler.delete key s

def addTo (b : WriteBatch) : Op → WriteBatch
  | put key value => b.put key value
  | delete key => b.delete key

end Op

def opsBytes (ops : List Op) : Slice := ops.flatMap Op.bytes

namespace WriteBatch

variable {b src : WriteBatch} {ops ops' : List Op}

structure Holds (b : WriteBatch) (ops : List Op) : Prop where
  body : b.rep.drop kHeader = opsBytes ops
  count_eq : b.count = ops.length
  fits : ∀ op ∈ ops, op.Fits

theorem length_take_eight (b : WriteBatch) : (b.rep.take 8).length = 8 := by
  have := b.kHeader_le
  rw [kHeader] at this
  rw [List.length_take]
  omega

theorem rep_setCount (n : ℕ) (b : WriteBatch) :
    (b.setCount n).rep = b.rep.take 8 ++ encodeFixed32 n ++ b.rep.drop kHeader := rfl

theorem rep_setSequence (seq : ℕ) (b : WriteBatch) :
    (b.setSequence seq).rep = encodeFixed64 seq ++ b.rep.drop 8 := rfl

theorem drop_setCount (n : ℕ) (b : WriteBatch) :
    (b.setCount n).rep.drop kHeader = b.rep.drop kHeader := by
  refine List.drop_left' ?_
  rw [List.length_append, length_take_eight, length_encodeFixed32, kHeader]

theorem count_setCount {n : ℕ} (h : n < 2 ^ 32) (b : WriteBatch) : (b.setCount n).count = n := by
  rw [count, rep_setCount, List.append_assoc, List.drop_left' (length_take_eight b)]
  exact decodeFixed32_encodeFixed32 h _

theorem drop_extend (b : WriteBatch) (bytes : Slice) :
    (b.extend bytes).rep.drop kHeader = b.rep.drop kHeader ++ bytes :=
  List.drop_append_of_le_length b.kHeader_le

theorem count_extend (b : WriteBatch) (bytes : Slice) : (b.extend bytes).count = b.count := by
  have h := b.kHeader_le
  rw [kHeader] at h
  have hfour : 4 ≤ (b.rep.drop 8).length := by
    rw [List.length_drop]
    omega
  rw [count, count, extend, List.drop_append_of_le_length (by omega), decodeFixed32, decodeFixed32,
    List.take_append_of_le_length hfour]

theorem drop_setSequence (seq : ℕ) (b : WriteBatch) (n : ℕ) :
    (b.setSequence seq).rep.drop (8 + n) = b.rep.drop (8 + n) := by
  rw [← List.drop_drop, rep_setSequence, List.drop_left' (length_encodeFixed64 seq), List.drop_drop]

theorem sequence_setSequence {seq : ℕ} (h : seq < 2 ^ 64) (b : WriteBatch) :
    (b.setSequence seq).sequence = seq :=
  decodeFixed64_encodeFixed64 h _

theorem count_setSequence (seq : ℕ) (b : WriteBatch) : (b.setSequence seq).count = b.count :=
  congrArg decodeFixed32 (drop_setSequence seq b 0)

theorem holds_new : new.Holds [] where
  body := rfl
  count_eq := by decide
  fits := by simp

theorem Holds.setSequence (h : b.Holds ops) (seq : ℕ) : (b.setSequence seq).Holds ops where
  body := (drop_setSequence seq b 4).trans h.body
  count_eq := (count_setSequence seq b).trans h.count_eq
  fits := h.fits

theorem Holds.extend (h : b.Holds ops) (hfits : ∀ op ∈ ops', op.Fits)
    (hcount : ops.length + ops'.length < 2 ^ 32) :
    ((b.setCount (ops.length + ops'.length)).extend (opsBytes ops')).Holds (ops ++ ops') where
  body := by
    rw [drop_extend, drop_setCount, h.body, opsBytes, opsBytes, opsBytes, List.flatMap_append]
  count_eq := by
    rw [count_extend, count_setCount hcount, List.length_append]
  fits := by
    intro op hop
    exact (List.mem_append.mp hop).elim (h.fits op) (hfits op)

theorem Holds.append (h : b.Holds ops) (h' : src.Holds ops')
    (hcount : ops.length + ops'.length < 2 ^ 32) : (b.append src).Holds (ops ++ ops') := by
  have hextend := h.extend h'.fits hcount
  rwa [← h.count_eq, ← h'.count_eq, ← h'.body] at hextend

theorem addTo_eq_extend (b : WriteBatch) (op : Op) :
    op.addTo b = (b.setCount (b.count + 1)).extend (opsBytes [op]) := by
  rw [opsBytes, List.flatMap_singleton]
  cases op <;> rfl

theorem Holds.addTo (h : b.Holds ops) {op : Op} (hfits : op.Fits)
    (hcount : ops.length + 1 < 2 ^ 32) : (op.addTo b).Holds (ops ++ [op]) := by
  have hextend := h.extend (List.forall_mem_singleton.mpr hfits) hcount
  rwa [List.length_singleton, ← h.count_eq, ← addTo_eq_extend] at hextend

section Iterate

variable {σ : Type*} {handler : Handler σ} {n k found : ℕ}

theorem iterateLoop_op {op : Op} (hfits : op.Fits) (rest : Slice) (s : σ) :
    iterateLoop handler k (n + 1) (op.bytes ++ rest) found s =
      iterateLoop handler k n rest (found + 1) (op.apply handler s) := by
  cases op with
  | put key value =>
      have hkey : key.length < 2 ^ 32 := by
        have := hfits.1
        omega
      rw [Op.bytes, List.append_assoc, List.cons_append, iterateLoop, if_pos rfl,
        reads_getLengthPrefixedSlice hkey]
      simp only [reads_getLengthPrefixedSlice hfits.2 rest]
      rfl
  | delete key =>
      have hkey : key.length < 2 ^ 32 := by
        have : key.length + 8 < 2 ^ 32 := hfits
        omega
      rw [Op.bytes, List.cons_append, iterateLoop, if_neg (by decide), if_pos rfl,
        reads_getLengthPrefixedSlice hkey]
      rfl

theorem iterateLoop_opsBytes (hfits : ∀ op ∈ ops, op.Fits) (hn : ops.length ≤ n)
    (hk : found + ops.length = k) (s : σ) :
    iterateLoop handler k n (opsBytes ops) found s =
      some (.ok, ops.foldl (fun s op => op.apply handler s) s) := by
  induction ops generalizing n found s with
  | nil =>
      have hfound : ¬ found ≠ k := not_not.mpr hk
      cases n <;> simp only [opsBytes, List.flatMap_nil, iterateLoop, if_neg hfound, List.foldl_nil]
  | cons op ops ih =>
      obtain ⟨n, rfl⟩ := Nat.exists_eq_add_one_of_ne_zero (Nat.ne_of_gt (Nat.zero_lt_of_lt hn))
      have hfits' : ∀ op' ∈ ops, op'.Fits := fun op' hop' =>
        hfits op' (List.mem_cons_of_mem op hop')
      have hk' : found + 1 + ops.length = k := by
        rw [List.length_cons] at hk
        omega
      rw [opsBytes, List.flatMap_cons, iterateLoop_op (hfits op List.mem_cons_self)]
      exact ih hfits' (Nat.le_of_succ_le_succ hn) hk' (op.apply handler s)

theorem length_le_length_opsBytes (ops : List Op) : ops.length ≤ (opsBytes ops).length := by
  induction ops with
  | nil => exact le_rfl
  | cons op ops ih =>
      have hop : 1 ≤ op.bytes.length := by
        cases op <;> simp [Op.bytes]
      rw [opsBytes, List.flatMap_cons, List.length_append, List.length_cons]
      rw [opsBytes] at ih
      omega

theorem Holds.length_le (h : b.Holds ops) : kHeader + ops.length ≤ b.rep.length := by
  have hbody := congrArg List.length h.body
  have hops := length_le_length_opsBytes ops
  have hheader := b.kHeader_le
  rw [List.length_drop] at hbody
  omega

theorem Holds.iterate (h : b.Holds ops) (handler : Handler σ) (s : σ) :
    b.iterate handler s = some (.ok, ops.foldl (fun s op => op.apply handler s) s) := by
  rw [WriteBatch.iterate, if_neg (Nat.not_lt.mpr b.kHeader_le), h.body]
  refine iterateLoop_opsBytes h.fits ?_ ?_ s
  · have := h.length_le
    omega
  · rw [h.count_eq, Nat.zero_add]

end Iterate

end WriteBatch

end Leveldb

end UnifyFramework
