import Mathlib.Data.List.Find
import UnifyFramework.Leveldb.Format
import UnifyFramework.Leveldb.WriteBatch

/-!
# The table in memory

Updates go into a table in memory, where each entry is one buffer: the internal key and the value,
each behind its length. The buffers are kept in the order of their keys. A lookup seeks the first
buffer that does not stand before the key at the sequence number, and so finds the newest version
that is not newer than the sequence number.
-/

namespace UnifyFramework

namespace Leveldb

open Parsing Versioned

structure MemTable where
  table : List Slice
deriving DecidableEq, Repr

namespace MemTable

def new : MemTable := ⟨[]⟩

/-- `GetLengthPrefixedSlice` of a buffer that is not checked for its length. -/
def getSlice (data : Slice) : Slice :=
  match getVarint32 data with
  | some (len, p) => p.take len
  | none => []

/-- `MemTable::KeyComparator`. -/
def keyCompare (a b : Slice) : Ordering := internalKeyCompare (getSlice a) (getSlice b)

/-- `SkipList::Insert`: in front of the first key that is not smaller. -/
def insert (key : Slice) (m : MemTable) : MemTable :=
  ⟨m.table.takeWhile (keyCompare · key = .lt) ++ key :: m.table.dropWhile (keyCompare · key = .lt)⟩

def seek (m : MemTable) (target : Slice) : Option Slice :=
  m.table.find? (keyCompare · target ≠ .lt)

/-- The buffer `Add` allocates. -/
def entryBuffer (s : ℕ) (type : ValueType) (key value : Slice) : Slice :=
  encodeVarint32 ((key.length + 8) % 2 ^ 32) ++ key ++ encodeFixed64 (s <<< 8 ||| type.code) ++
    encodeVarint32 (value.length % 2 ^ 32) ++ value

def add (s : ℕ) (type : ValueType) (key value : Slice) (m : MemTable) : MemTable :=
  m.insert (entryBuffer s type key value)

def memtableKey (userKey : Slice) (sequence : ℕ) : Slice :=
  encodeVarint32 ((userKey.length + 8) % 2 ^ 32) ++ lookupKey userKey sequence

/-- `MemTable::Get`: nothing if it has no entry for the key, else the value, or that the key was
deleted. -/
def get (m : MemTable) (userKey : Slice) (sequence : ℕ) : Option (Option Slice) :=
  match m.seek (memtableKey userKey sequence) with
  | none => none
  | some entry =>
      match getVarint32 entry with
      | none => none
      | some (keyLength, keyPtr) =>
          if bytewiseCompare (keyPtr.take (keyLength - 8)) userKey = .eq then
            match decodeFixed64 (keyPtr.drop (keyLength - 8)) &&& 0xff with
            | 0 => some none
            | 1 => some (some (getSlice (keyPtr.drop keyLength)))
            | _ => none
          else none

/-- What `NewIterator` goes through: the internal keys and the values. -/
def contents (m : MemTable) : List (Slice × Slice) :=
  m.table.map fun entry =>
    match getVarint32 entry with
    | some (len, p) => (p.take len, getSlice (p.drop len))
    | none => ([], [])

/-- `MemTableInserter`, with the sequence number of the next operation. -/
def inserter : WriteBatch.Handler (ℕ × MemTable) where
  put key value s := (s.1 + 1, s.2.add s.1 .value key value)
  delete key s := (s.1 + 1, s.2.add s.1 .deletion key [])

end MemTable

def WriteBatch.insertInto (b : WriteBatch) (m : MemTable) : Option (Status × MemTable) :=
  (b.iterate MemTable.inserter (b.sequence, m)).map fun r => (r.1, r.2.2)

def encodeEntry (e : Entry) : Slice :=
  MemTable.entryBuffer e.seq (entryType e) e.key (entryValue e)

theorem encodeEntry_eq (e : Entry) :
    encodeEntry e = putLengthPrefixedSlice (entryKey e) ++ putLengthPrefixedSlice (entryValue e) := by
  rw [putLengthPrefixedSlice, putLengthPrefixedSlice, entryKey, length_appendInternalKey,
    appendInternalKey, encodeEntry, MemTable.entryBuffer, packSequenceAndType]
  simp only [List.append_assoc]

namespace MemTable

variable {e f : Entry} {es : List Entry} {m : MemTable} {k : Slice} {s : ℕ}

theorem getSlice_putLengthPrefixedSlice {value : Slice} (h : value.length < 2 ^ 32) (rest : Slice) :
    getSlice (putLengthPrefixedSlice value ++ rest) = value := by
  rw [getSlice, putLengthPrefixedSlice, List.append_assoc, Nat.mod_eq_of_lt h,
    reads_getVarint32 h (value ++ rest)]
  exact List.take_left

theorem length_entryKey_lt (h : EntryFits e) : (entryKey e).length < 2 ^ 32 := by
  rw [entryKey, length_appendInternalKey]
  exact h.key_lt

theorem getSlice_encodeEntry (h : EntryFits e) : getSlice (encodeEntry e) = entryKey e := by
  rw [encodeEntry_eq, getSlice_putLengthPrefixedSlice (length_entryKey_lt h)]

theorem getVarint32_encodeEntry (h : EntryFits e) :
    getVarint32 (encodeEntry e) =
      some (e.key.length + 8, entryKey e ++ putLengthPrefixedSlice (entryValue e)) := by
  have hlength := length_entryKey_lt h
  rw [encodeEntry_eq, putLengthPrefixedSlice, Nat.mod_eq_of_lt hlength, List.append_assoc,
    reads_getVarint32 hlength, entryKey, length_appendInternalKey]

theorem getSlice_memtableKey (hk : k.length + 8 < 2 ^ 32) :
    getSlice (memtableKey k s) = lookupKey k s := by
  have hlength : (lookupKey k s).length = k.length + 8 := length_appendInternalKey _
  have hput : memtableKey k s = putLengthPrefixedSlice (lookupKey k s) ++ [] := by
    rw [memtableKey, putLengthPrefixedSlice, hlength, List.append_nil]
  rw [hput, getSlice_putLengthPrefixedSlice (by rw [hlength]; exact hk)]

structure Represents (m : MemTable) (es : List Entry) : Prop where
  table_eq : m.table = es.map encodeEntry
  sorted : es.Pairwise EntryBefore
  fits : ∀ e ∈ es, EntryFits e

theorem represents_new : new.Represents [] where
  table_eq := rfl
  sorted := .nil
  fits := by simp

theorem seek_eq (h : m.Represents es) (hk : k.length + 8 < 2 ^ 32) (hs : s ≤ kMaxSequenceNumber) :
    m.seek (memtableKey k s) = (Versioned.seek bytewiseCompare es k s).map encodeEntry := by
  rw [MemTable.seek, h.table_eq, List.find?_map, Versioned.seek]
  refine congrArg (Option.map encodeEntry) ?_
  refine List.find?_congr fun e he => ?_
  have hfits := h.fits e he
  have hiff : (keyCompare (encodeEntry e) (memtableKey k s) ≠ .lt) ↔
      (bytewiseCompare e.key k = .gt ∨ e.key = k ∧ e.seq ≤ s) := by
    rw [keyCompare, getSlice_encodeEntry hfits, getSlice_memtableKey hk]
    exact internalKeyCompare_lookupKey_ne hfits.seq_le hs k
  simp only [Function.comp_apply, hiff, Bool.decide_or, Bool.decide_and]

/-- What `Get` takes from the buffer it has found. -/
theorem getVarint32_parts (e : Entry) (h : EntryFits e) (rest : Slice) :
    (entryKey e ++ rest).take (e.key.length + 8 - 8) = e.key ∧
      decodeFixed64 ((entryKey e ++ rest).drop (e.key.length + 8 - 8)) &&& 0xff =
        (entryType e).code ∧
      (entryKey e ++ rest).drop (e.key.length + 8) = rest := by
  refine ⟨?_, ?_, ?_⟩
  · rw [Nat.add_sub_cancel, entryKey, appendInternalKey, List.append_assoc, List.take_left]
  · rw [Nat.add_sub_cancel, entryKey, appendInternalKey, List.append_assoc, List.drop_left,
      decodeFixed64_encodeFixed64 (packSequenceAndType_lt h.seq_le _), packSequenceAndType_and]
  · exact List.drop_left' (length_appendInternalKey _)

theorem get_eq_lookup (h : m.Represents es) (hk : k.length + 8 < 2 ^ 32)
    (hs : s ≤ kMaxSequenceNumber) : m.get k s = lookup bytewiseCompare es k s := by
  rw [MemTable.get, seek_eq h hk hs, lookup]
  cases hseek : Versioned.seek bytewiseCompare es k s with
  | none => rfl
  | some e =>
      have he : EntryFits e := h.fits e (List.mem_of_find?_eq_some hseek)
      obtain ⟨hkey, htag, hrest⟩ :=
        getVarint32_parts e he (putLengthPrefixedSlice (entryValue e))
      have hvalue : getSlice (putLengthPrefixedSlice (entryValue e)) = entryValue e := by
        have hget := getSlice_putLengthPrefixedSlice he.value_lt []
        rwa [List.append_nil] at hget
      simp only [Option.map_some, getVarint32_encodeEntry he, Option.bind_some, hkey, htag, hrest,
        hvalue, Std.LawfulEqCmp.compare_eq_iff_eq]
      by_cases hek : e.key = k
      · simp only [hek, if_true]
        rw [entryType, entryValue]
        cases e.value <;> rfl
      · simp only [hek, if_false]

theorem contents_eq (h : m.Represents es) :
    m.contents = es.map entryPair := by
  rw [contents, h.table_eq, List.map_map]
  refine List.map_congr_left fun e he => ?_
  have hfits := h.fits e he
  have hvalue : getSlice (putLengthPrefixedSlice (entryValue e)) = entryValue e := by
    have hget := getSlice_putLengthPrefixedSlice hfits.value_lt []
    rwa [List.append_nil] at hget
  have hlength : (entryKey e).length = e.key.length + 8 := length_appendInternalKey _
  simp only [Function.comp_apply, getVarint32_encodeEntry hfits, ← hlength, List.take_left,
    List.drop_left, hvalue, entryPair]

theorem takeWhile_dropWhile_congr {α : Type*} {p q : α → Bool} {l : List α}
    (h : ∀ x ∈ l, p x = q x) :
    l.takeWhile p = l.takeWhile q ∧ l.dropWhile p = l.dropWhile q := by
  induction l with
  | nil => exact ⟨rfl, rfl⟩
  | cons x l ih =>
      obtain ⟨htake, hdrop⟩ := ih fun y hy => h y (List.mem_cons_of_mem x hy)
      simp only [List.takeWhile_cons, List.dropWhile_cons, h x List.mem_cons_self, htake, hdrop,
        and_self]

theorem represents_insert (h : m.Represents es) (he : EntryFits e)
    (hseq : ∀ f ∈ es, f.seq ≠ e.seq) :
    (m.insert (encodeEntry e)).Represents (insertEntry bytewiseCompare e es) := by
  have hcompare : ∀ f ∈ es, (keyCompare (encodeEntry f) (encodeEntry e) = .lt) ↔ EntryBefore f e := by
    intro f hf
    have hfits := h.fits f hf
    rw [keyCompare, getSlice_encodeEntry hfits, getSlice_encodeEntry he]
    exact internalKeyCompare_entryKey hfits.seq_le he.seq_le (hseq f hf)
  refine ⟨?_, ?_, ?_⟩
  · rw [insert, h.table_eq, List.takeWhile_map, List.dropWhile_map, insertEntry, List.map_append,
      List.map_cons]
    have hsame : ∀ f ∈ es, ((fun entry => decide (keyCompare entry (encodeEntry e) = .lt)) ∘
        encodeEntry) f = decide (EntryBefore f e) := by
      intro f hf
      simp only [Function.comp_apply, hcompare f hf]
    obtain ⟨htake, hdrop⟩ := takeWhile_dropWhile_congr hsame
    rw [htake, hdrop]
  · exact sorted_insertEntry h.sorted fun f hf => entryBefore_or (hseq f hf)
  · intro f hf
    rcases mem_insertEntry.mp hf with rfl | hf
    · exact he
    · exact h.fits f hf

end MemTable

namespace Op

def key : Op → Slice
  | put key _ => key
  | delete key => key

/-- What the operation leaves: a value, or none. -/
def value : Op → Option Slice
  | put _ value => some value
  | delete _ => none

end Op

def opEntries : ℕ → List Op → List Entry
  | _, [] => []
  | seq, op :: ops => ⟨op.key, seq, op.value⟩ :: opEntries (seq + 1) ops

variable {seq : ℕ} {op : Op} {ops ops' : List Op} {e : Entry} {es : List Entry} {m : MemTable}
  {b : WriteBatch}

theorem seq_of_mem_opEntries (h : e ∈ opEntries seq ops) :
    seq ≤ e.seq ∧ e.seq < seq + ops.length := by
  induction ops generalizing seq with
  | nil => exact absurd h List.not_mem_nil
  | cons op ops ih =>
      rw [List.length_cons]
      rcases List.mem_cons.mp h with rfl | h
      · exact ⟨le_rfl, Nat.lt_add_of_pos_right (Nat.succ_pos _)⟩
      · have := ih h
        omega

theorem opEntries_grow (seq : ℕ) (ops : List Op) :
    (opEntries seq ops).Pairwise fun e f => e.seq < f.seq := by
  induction ops generalizing seq with
  | nil => exact .nil
  | cons op ops ih => exact (ih (seq + 1)).cons fun e he => (seq_of_mem_opEntries he).1

theorem entryFits_op (h : op.Fits) (hseq : seq ≤ kMaxSequenceNumber) :
    EntryFits ⟨op.key, seq, op.value⟩ := by
  cases op with
  | put key value => exact ⟨h.1, h.2, hseq⟩
  | delete key => exact ⟨h, Nat.two_pow_pos 32, hseq⟩

theorem apply_inserter (seq : ℕ) (m : MemTable) (op : Op) :
    op.apply MemTable.inserter (seq, m) =
      (seq + 1, m.insert (encodeEntry ⟨op.key, seq, op.value⟩)) := by
  cases op <;> rfl

/-- Operations with new sequence numbers are added to the entries of the table. -/
theorem represents_foldl (h : m.Represents es) (hfits : ∀ op ∈ ops, op.Fits)
    (hbelow : ∀ e ∈ es, e.seq < seq) (hmax : seq + ops.length ≤ kMaxSequenceNumber + 1) :
    ∃ m' es', ops.foldl (fun s op => op.apply MemTable.inserter s) (seq, m) =
        (seq + ops.length, m') ∧ m'.Represents es' ∧
      ∀ e, e ∈ es' ↔ e ∈ es ∨ e ∈ opEntries seq ops := by
  induction ops generalizing seq m es with
  | nil => exact ⟨m, es, rfl, h, fun e => by simp [opEntries]⟩
  | cons op ops ih =>
      rw [List.length_cons] at hmax
      have hop : EntryFits ⟨op.key, seq, op.value⟩ :=
        entryFits_op (hfits op List.mem_cons_self) (by omega)
      have hinsert := MemTable.represents_insert h hop fun f hf => (hbelow f hf).ne
      have hbelow' : ∀ f ∈ Versioned.insertEntry bytewiseCompare ⟨op.key, seq, op.value⟩ es,
          f.seq < seq + 1 := by
        intro f hf
        rcases Versioned.mem_insertEntry.mp hf with rfl | hf
        · exact Nat.lt_succ_self _
        · exact (hbelow f hf).trans (Nat.lt_succ_self _)
      obtain ⟨m', es', hfold, hrep, hmem⟩ := ih hinsert
        (fun op' hop' => hfits op' (List.mem_cons_of_mem op hop')) hbelow' (by omega)
      refine ⟨m', es', ?_, hrep, fun e => ?_⟩
      · rw [List.foldl_cons, apply_inserter, hfold, List.length_cons, Nat.add_right_comm,
          Nat.add_assoc]
      · rw [hmem, Versioned.mem_insertEntry, opEntries, List.mem_cons]
        tauto

theorem WriteBatch.Holds.insertInto (hb : b.Holds ops) (h : m.Represents es)
    (hbelow : ∀ e ∈ es, e.seq < b.sequence)
    (hmax : b.sequence + ops.length ≤ kMaxSequenceNumber + 1) :
    ∃ m' es', b.insertInto m = some (.ok, m') ∧ m'.Represents es' ∧
      ∀ e, e ∈ es' ↔ e ∈ es ∨ e ∈ opEntries b.sequence ops := by
  obtain ⟨m', es', hfold, hrep, hmem⟩ := represents_foldl h hb.fits hbelow hmax
  refine ⟨m', es', ?_, hrep, hmem⟩
  rw [WriteBatch.insertInto, hb.iterate, hfold]
  rfl

end Leveldb

end UnifyFramework
