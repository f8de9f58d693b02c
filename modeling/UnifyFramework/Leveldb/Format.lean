import Mathlib.Algebra.Group.Nat.Defs
import Mathlib.Data.List.Lex
import UnifyFramework.Leveldb.Coding
import UnifyFramework.Versioned.Basic

/-!
# Keys of the database

The database keeps versions of user keys. An internal key is the user key followed by eight bytes
for the sequence number and the type. Internal keys are ordered by user key, byte by byte, and
those of one user key from the newest to the oldest.
-/

namespace UnifyFramework

namespace Leveldb

def memcmp : Slice → Slice → Ordering
  | a :: as, b :: bs => (compare a b).then (memcmp as bs)
  | _, _ => .eq

/-- `Slice::compare`, which the bytewise comparator uses. -/
def bytewiseCompare (a b : Slice) : Ordering :=
  let minLen := if a.length < b.length then a.length else b.length
  match memcmp (a.take minLen) (b.take minLen) with
  | .eq =>
      if a.length < b.length then .lt
      else if b.length < a.length then .gt
      else .eq
  | r => r

theorem bytewiseCompare_cons (a b : UInt8) (as bs : Slice) :
    bytewiseCompare (a :: as) (b :: bs) = (compare a b).then (bytewiseCompare as bs) := by
  simp only [bytewiseCompare, List.length_cons, Nat.succ_lt_succ_iff]
  have hmin : (if as.length < bs.length then as.length + 1 else bs.length + 1) =
      (if as.length < bs.length then as.length else bs.length) + 1 := by
    split <;> rfl
  rw [hmin, List.take_succ_cons, List.take_succ_cons, memcmp]
  cases compare a b <;> rfl

theorem bytewiseCompare_eq_compare : bytewiseCompare = compare := by
  funext a b
  induction a generalizing b with
  | nil => cases b <;> rfl
  | cons a as ih =>
      cases b with
      | nil => rfl
      | cons b bs =>
          rw [bytewiseCompare_cons, ih, List.compare_cons_cons]

instance : Std.TransCmp bytewiseCompare := by
  rw [bytewiseCompare_eq_compare]
  infer_instance

instance : Std.LawfulEqCmp bytewiseCompare := by
  rw [bytewiseCompare_eq_compare]
  infer_instance

/-- The bytes of a user key as numbers: the order of user keys is the lexicographic one. -/
def rank (key : Slice) : List ℕ := key.map UInt8.toNat

theorem rank_cons (b : UInt8) (key : Slice) : rank (b :: key) = b.toNat :: rank key := rfl

theorem rank_injective : Function.Injective rank := fun _ _ h =>
  List.map_injective_iff.mpr (fun _ _ => UInt8.toNat_inj.mp) h

theorem bytewiseCompare_eq_lt_iff (a b : Slice) : bytewiseCompare a b = .lt ↔ rank a < rank b := by
  rw [bytewiseCompare_eq_compare]
  induction a generalizing b with
  | nil => cases b <;> simp [rank]
  | cons a as ih =>
      cases b with
      | nil => simp [rank]
      | cons b bs =>
          have hlt : compare a b = .lt ↔ a.toNat < b.toNat := Std.compare_eq_lt
          have heq : compare a b = .eq ↔ a.toNat = b.toNat := by
            rw [Std.LawfulEqCmp.compare_eq_iff_eq, UInt8.toNat_inj]
          rw [List.compare_cons_cons, Ordering.then_eq_lt, ih, hlt, heq, rank_cons, rank_cons,
            List.cons_lt_cons_iff]

theorem bytewiseCompare_eq_gt_iff (a b : Slice) : bytewiseCompare a b = .gt ↔ rank b < rank a := by
  rw [← bytewiseCompare_eq_lt_iff, Std.OrientedCmp.gt_iff_lt]

inductive ValueType
  | deletion
  | value
deriving DecidableEq, Repr

/-- `kTypeDeletion` and `kTypeValue`. -/
def ValueType.code : ValueType → ℕ
  | .deletion => 0
  | .value => 1

def kMaxSequenceNumber : ℕ := 2 ^ 56 - 1

def packSequenceAndType (seq : ℕ) (t : ValueType) : ℕ := seq <<< 8 ||| t.code

structure ParsedInternalKey where
  userKey : Slice
  sequence : ℕ
  type : ValueType
deriving DecidableEq, Repr

/-- What `AppendInternalKey` appends. -/
def appendInternalKey (key : ParsedInternalKey) : Slice :=
  key.userKey ++ encodeFixed64 (packSequenceAndType key.sequence key.type)

def extractUserKey (internalKey : Slice) : Slice := internalKey.take (internalKey.length - 8)

/-- The last eight bytes of an internal key. -/
def extractTag (internalKey : Slice) : ℕ := decodeFixed64 (internalKey.drop (internalKey.length - 8))

def parseInternalKey (internalKey : Slice) : Option ParsedInternalKey :=
  if internalKey.length < 8 then none
  else
    let num := extractTag internalKey
    match num &&& 0xff with
    | 0 => some ⟨extractUserKey internalKey, num >>> 8, .deletion⟩
    | 1 => some ⟨extractUserKey internalKey, num >>> 8, .value⟩
    | _ => none

/-- `InternalKeyComparator::Compare`. -/
def internalKeyCompare (akey bkey : Slice) : Ordering :=
  match bytewiseCompare (extractUserKey akey) (extractUserKey bkey) with
  | .eq =>
      if extractTag bkey < extractTag akey then .lt
      else if extractTag akey < extractTag bkey then .gt
      else .eq
  | r => r

/-- `LookupKey::internal_key`: the type is the largest one, so that the versions with the
sequence number itself are not passed over. -/
def lookupKey (userKey : Slice) (sequence : ℕ) : Slice :=
  appendInternalKey ⟨userKey, sequence, .value⟩

theorem ValueType.code_le_one (t : ValueType) : t.code ≤ 1 := by
  cases t <;> decide

theorem packSequenceAndType_eq (seq : ℕ) (t : ValueType) :
    packSequenceAndType seq t = 2 ^ 8 * seq + t.code := by
  have hcode : t.code < 2 ^ 8 := Nat.lt_of_le_of_lt t.code_le_one (by decide)
  rw [packSequenceAndType, Nat.shiftLeft_eq, Nat.mul_comm, Nat.two_pow_add_eq_or_of_lt hcode]

theorem packSequenceAndType_lt {seq : ℕ} (h : seq ≤ kMaxSequenceNumber) (t : ValueType) :
    packSequenceAndType seq t < 2 ^ 64 := by
  have hcode := t.code_le_one
  rw [packSequenceAndType_eq]
  rw [kMaxSequenceNumber] at h
  omega

theorem packSequenceAndType_and (seq : ℕ) (t : ValueType) :
    packSequenceAndType seq t &&& 0xff = t.code := by
  have hmod := Nat.and_two_pow_sub_one_eq_mod (packSequenceAndType seq t) 8
  have hcode := t.code_le_one
  rw [packSequenceAndType_eq] at hmod ⊢
  refine hmod.trans ?_
  omega

theorem packSequenceAndType_shiftRight (seq : ℕ) (t : ValueType) :
    packSequenceAndType seq t >>> 8 = seq := by
  have hcode := t.code_le_one
  rw [packSequenceAndType_eq, Nat.shiftRight_eq_div_pow]
  omega

section Append

variable {key : ParsedInternalKey}

@[simp]
theorem length_appendInternalKey (key : ParsedInternalKey) :
    (appendInternalKey key).length = key.userKey.length + 8 := by
  rw [appendInternalKey, List.length_append, length_encodeFixed64]

@[simp]
theorem extractUserKey_appendInternalKey (key : ParsedInternalKey) :
    extractUserKey (appendInternalKey key) = key.userKey := by
  rw [extractUserKey, length_appendInternalKey, Nat.add_sub_cancel, appendInternalKey,
    List.take_left]

theorem extractTag_appendInternalKey (h : key.sequence ≤ kMaxSequenceNumber) :
    extractTag (appendInternalKey key) = packSequenceAndType key.sequence key.type := by
  rw [extractTag, length_appendInternalKey, Nat.add_sub_cancel, appendInternalKey, List.drop_left]
  have hdecode := decodeFixed64_encodeFixed64 (packSequenceAndType_lt h key.type) []
  rwa [List.append_nil] at hdecode

theorem parseInternalKey_appendInternalKey (h : key.sequence ≤ kMaxSequenceNumber) :
    parseInternalKey (appendInternalKey key) = some key := by
  have hlength : ¬ (appendInternalKey key).length < 8 := by
    rw [length_appendInternalKey]
    omega
  rw [parseInternalKey, if_neg hlength, extractTag_appendInternalKey h]
  simp only [packSequenceAndType_and, packSequenceAndType_shiftRight,
    extractUserKey_appendInternalKey]
  obtain ⟨userKey, sequence, type⟩ := key
  cases type <;> rfl

theorem internalKeyCompare_eq_lt_iff {key' : ParsedInternalKey}
    (h : key.sequence ≤ kMaxSequenceNumber) (h' : key'.sequence ≤ kMaxSequenceNumber) :
    internalKeyCompare (appendInternalKey key) (appendInternalKey key') = .lt ↔
      bytewiseCompare key.userKey key'.userKey = .lt ∨
        key.userKey = key'.userKey ∧
          packSequenceAndType key'.sequence key'.type <
            packSequenceAndType key.sequence key.type := by
  rw [internalKeyCompare, extractUserKey_appendInternalKey, extractUserKey_appendInternalKey,
    extractTag_appendInternalKey h, extractTag_appendInternalKey h']
  have hkey : key.userKey = key'.userKey ↔ bytewiseCompare key.userKey key'.userKey = .eq :=
    Std.LawfulEqCmp.compare_eq_iff_eq.symm
  rw [hkey]
  cases bytewiseCompare key.userKey key'.userKey with
  | lt => simp
  | gt => simp
  | eq =>
      simp only [reduceCtorEq, false_or, true_and]
      split
      · simp_all
      · split <;> simp_all

end Append

abbrev Entry := Versioned.Entry Slice (Option Slice)

def entryType (e : Entry) : ValueType := if e.value.isSome then .value else .deletion

def entryKey (e : Entry) : Slice := appendInternalKey ⟨e.key, e.seq, entryType e⟩

def entryValue (e : Entry) : Slice := e.value.getD []

def entryPair (e : Entry) : Slice × Slice := (entryKey e, entryValue e)

structure EntryFits (e : Entry) : Prop where
  key_lt : e.key.length + 8 < 2 ^ 32
  value_lt : (entryValue e).length < 2 ^ 32
  seq_le : e.seq ≤ kMaxSequenceNumber

abbrev EntryBefore : Entry → Entry → Prop := Versioned.Before bytewiseCompare

variable {e f : Entry}

theorem entryPair_inj (he : EntryFits e) (hf : EntryFits f) (hpair : entryPair e = entryPair f) :
    e = f := by
  obtain ⟨hkey, hvalue⟩ := Prod.mk.inj hpair
  have hparse := congrArg parseInternalKey hkey
  rw [entryKey, entryKey, parseInternalKey_appendInternalKey he.seq_le,
    parseInternalKey_appendInternalKey hf.seq_le, Option.some.injEq, ParsedInternalKey.mk.injEq] at hparse
  obtain ⟨hk, hs, ht⟩ := hparse
  obtain ⟨ek, es, ev⟩ := e
  obtain ⟨fk, fs, fv⟩ := f
  rw [Versioned.Entry.mk.injEq]
  refine ⟨hk, hs, ?_⟩
  rw [entryType, entryType] at ht
  rw [entryValue, entryValue] at hvalue
  cases ev <;> cases fv <;> simp_all

/-- Entries with different sequence numbers stand in one order or the other. -/
theorem entryBefore_or (h : e.seq ≠ f.seq) : EntryBefore e f ∨ EntryBefore f e := by
  cases hcmp : bytewiseCompare e.key f.key with
  | lt => exact .inl (.inl hcmp)
  | gt => exact .inr (.inl (Std.OrientedCmp.lt_of_gt hcmp))
  | eq =>
      have hkey : e.key = f.key := Std.LawfulEqCmp.eq_of_compare hcmp
      rcases Nat.lt_or_gt_of_ne h with hlt | hlt
      · exact .inr (.inr ⟨hkey.symm, hlt⟩)
      · exact .inl (.inr ⟨hkey, hlt⟩)

theorem internalKeyCompare_entryKey (he : e.seq ≤ kMaxSequenceNumber)
    (hf : f.seq ≤ kMaxSequenceNumber) (h : e.seq ≠ f.seq) :
    internalKeyCompare (entryKey e) (entryKey f) = .lt ↔ EntryBefore e f := by
  have hcode := (entryType e).code_le_one
  have hcode' := (entryType f).code_le_one
  have hpack : packSequenceAndType f.seq (entryType f) < packSequenceAndType e.seq (entryType e) ↔
      f.seq < e.seq := by
    rw [packSequenceAndType_eq, packSequenceAndType_eq]
    omega
  rw [entryKey, entryKey, internalKeyCompare_eq_lt_iff he hf, hpack]
  rfl

/-- The entries that stand before what is looked up: those of smaller keys, and those of the key
that are too new. -/
theorem internalKeyCompare_lookupKey (he : e.seq ≤ kMaxSequenceNumber) {s : ℕ}
    (hs : s ≤ kMaxSequenceNumber) (k : Slice) :
    internalKeyCompare (entryKey e) (lookupKey k s) = .lt ↔
      rank e.key < rank k ∨ e.key = k ∧ s < e.seq := by
  have hcode := (entryType e).code_le_one
  have hpack : packSequenceAndType s .value < packSequenceAndType e.seq (entryType e) ↔ s < e.seq := by
    rw [packSequenceAndType_eq, packSequenceAndType_eq, ValueType.code]
    omega
  rw [entryKey, lookupKey, internalKeyCompare_eq_lt_iff he hs, hpack, bytewiseCompare_eq_lt_iff]

theorem internalKeyCompare_lookupKey_ne (he : e.seq ≤ kMaxSequenceNumber) {s : ℕ}
    (hs : s ≤ kMaxSequenceNumber) (k : Slice) :
    (internalKeyCompare (entryKey e) (lookupKey k s) ≠ .lt) ↔
      (bytewiseCompare e.key k = .gt ∨ e.key = k ∧ e.seq ≤ s) := by
  rw [ne_eq, internalKeyCompare_lookupKey he hs, bytewiseCompare_eq_gt_iff]
  rcases lt_trichotomy (rank e.key) (rank k) with hlt | heq | hgt
  · have hne : e.key ≠ k := fun heq => hlt.ne (congrArg rank heq)
    simp [hlt, hlt.le, hne]
  · simp [rank_injective heq]
  · have hne : e.key ≠ k := fun heq => hgt.ne' (congrArg rank heq)
    simp [hgt, hgt.le, hne]

end Leveldb

end UnifyFramework
