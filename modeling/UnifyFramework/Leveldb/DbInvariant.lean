import UnifyFramework.Leveldb.CompactionOrder
import UnifyFramework.Leveldb.Store

/-!
# What the database holds

Everything that was written is in the files, in the table that was set aside or in the one new
updates go to, in the order of the sequence numbers; and what is not in the files is in the logs.
A lookup at the last sequence number therefore gets what was written last.
-/

namespace UnifyFramework

namespace Leveldb

open Versioned

/-- The operations of a batch, the sequence number of the first of them, and whether the log is
synced with them. -/
structure Group where
  seq : ℕ
  ops : List Op
  sync : Bool

namespace Group

def entries (g : Group) : List Entry := opEntries g.seq g.ops

def commit (g : Group) : Commit := ⟨g.ops, g.sync⟩

/-- The sequence numbers are neither zero nor too large. -/
def InRange (g : Group) : Prop := 0 < g.seq ∧ g.seq + g.ops.length ≤ kMaxSequenceNumber

structure IsBatch (g : Group) (b : WriteBatch) : Prop where
  holds : b.Holds g.ops
  sequence_eq : b.sequence = g.seq

end Group

def groupEntries (gs : List Group) : List Entry := gs.flatMap Group.entries

theorem groupEntries_append (gs gs' : List Group) :
    groupEntries (gs ++ gs') = groupEntries gs ++ groupEntries gs' := List.flatMap_append

theorem groupEntries_singleton (g : Group) : groupEntries [g] = g.entries :=
  List.flatMap_singleton Group.entries g

theorem writes_groupEntries (gs : List Group) :
    Store.Writes ((gs.map Group.commit).flatMap Commit.ops) (groupEntries gs) := by
  induction gs with
  | nil => exact Store.writes_nil
  | cons g gs ih => exact (Store.writes_opEntries g.seq g.ops).append ih

/-- The log was written with the groups. The bytes that were synced have all groups the log was
synced with. -/
def LogHolds (o : Options) (log : LogWriter) (synced : ℕ) (gs : List Group) : Prop :=
  ∃ bs, List.Forall₂ Group.IsBatch gs bs ∧
    LogWriter.new.addRecords o.crc32c (bs.map WriteBatch.rep) = some log ∧
    ∃ j ≤ gs.length, (∀ g ∈ gs.drop j, g.sync = false) ∧
      ∃ w, LogWriter.new.addRecords o.crc32c ((bs.map WriteBatch.rep).take j) = some w ∧
        w.dest.length ≤ synced

def MemHolds (m : MemTable) (es : List Entry) : Prop :=
  ∃ sorted, m.Represents sorted ∧ ∀ e, e ∈ sorted ↔ e ∈ es

structure Tables (v : Version) (bound : ℕ) (es : List Entry) : Prop where
  ordered : v.Ordered
  subset : ∀ e ∈ v.allEntries, e ∈ es
  same : SameReads bound {e | e ∈ es} v.allEntries

variable {o : Options} {db : Db} {k : Slice} {s : ℕ}

theorem logHolds_new (o : Options) : LogHolds o .new 0 [] :=
  ⟨[], .nil, rfl, 0, le_rfl, fun _ hg => absurd hg List.not_mem_nil, .new, rfl, le_rfl⟩

theorem addRecords_append (crc32c : Crc32c) (xs ys : List Slice) (w : LogWriter) :
    w.addRecords crc32c (xs ++ ys) =
      (w.addRecords crc32c xs).bind (LogWriter.addRecords crc32c ys) := by
  induction xs generalizing w with
  | nil => rfl
  | cons x xs ih =>
      rw [List.cons_append, LogWriter.addRecords, LogWriter.addRecords, Option.bind_assoc]
      exact Option.bind_congr fun w' _ => ih w'

theorem LogHolds.add {log log' : LogWriter} {synced : ℕ} {gs : List Group} {g : Group}
    {b : WriteBatch} (h : LogHolds o log synced gs) (hg : g.IsBatch b)
    (hadd : log.addRecord o.crc32c b.rep = some log') :
    LogHolds o log' (if g.sync then log'.dest.length else synced) (gs ++ [g]) := by
  obtain ⟨bs, hbs, hlog, j, hj, hrest, w, hw, hsynced⟩ := h
  have hlog' : LogWriter.new.addRecords o.crc32c ((bs ++ [b]).map WriteBatch.rep) = some log' := by
    rw [List.map_append, addRecords_append, hlog, Option.bind_some, List.map_singleton,
      LogWriter.addRecords, hadd]
    rfl
  have hlength : gs.length = (bs.map WriteBatch.rep).length := by
    rw [List.length_map, hbs.length_eq]
  refine ⟨bs ++ [b], List.rel_append hbs (.cons hg .nil), hlog', ?_⟩
  split
  · refine ⟨(gs ++ [g]).length, le_rfl, ?_, log', ?_, le_rfl⟩
    · rw [List.drop_length]
      exact fun _ hg => absurd hg List.not_mem_nil
    · rw [← hlog', List.take_of_length_le]
      rw [List.map_append, List.length_append, List.length_append, hlength]
      rfl
  · rename_i hsync
    refine ⟨j, hj.trans ?_, ?_, w, ?_, hsynced⟩
    · rw [List.length_append]
      exact Nat.le_add_right _ _
    · rw [List.drop_append_of_le_length hj]
      intro f hf
      rcases List.mem_append.mp hf with hf | hf
      · exact hrest f hf
      · rw [List.mem_singleton.mp hf]
        exact Bool.eq_false_iff.mpr hsync
    · rw [List.map_append, List.take_append_of_le_length (hj.trans hlength.le)]
      exact hw

theorem memHolds_new : MemHolds .new [] := ⟨[], MemTable.represents_new, fun _ => Iff.rfl⟩

theorem MemHolds.eq_nil {es : List Entry} (h : MemHolds .new es) : es = [] := by
  obtain ⟨sorted, hrep, hmem⟩ := h
  obtain rfl : sorted = [] := List.map_eq_nil_iff.mp hrep.table_eq.symm
  exact List.eq_nil_iff_forall_not_mem.mpr fun e he => List.not_mem_nil ((hmem e).mpr he)

theorem MemHolds.answers {m : MemTable} {es : List Entry} (h : MemHolds m es)
    (hk : k.length + 8 < 2 ^ 32) (hs : s ≤ kMaxSequenceNumber) :
    Answers {e | e ∈ es} k s (m.get k s) := by
  obtain ⟨sorted, hrep, hmem⟩ := h
  rw [MemTable.get_eq_lookup hrep hk hs]
  exact (answers_lookup hrep.sorted k s).congr fun e _ _ => hmem e

theorem MemHolds.insertInto {m : MemTable} {es : List Entry} {g : Group} {b : WriteBatch}
    (h : MemHolds m es) (hg : g.IsBatch b) (hrange : g.InRange)
    (hgrow : (es ++ g.entries).Pairwise fun e f => e.seq < f.seq) :
    ∃ m', b.insertInto m = some (.ok, m') ∧ MemHolds m' (es ++ g.entries) := by
  obtain ⟨sorted, hrep, hmem⟩ := h
  obtain ⟨seq, ops, sync⟩ := g
  cases ops with
  | nil =>
      refine ⟨m, ?_, sorted, hrep, fun e => ?_⟩
      · rw [WriteBatch.insertInto, hg.holds.iterate]
        rfl
      · rw [Group.entries, opEntries, List.append_nil]
        exact hmem e
  | cons op ops =>
      have hlt := (List.pairwise_append.mp hgrow).2.2
      have hbelow : ∀ e ∈ sorted, e.seq < b.sequence := by
        intro e he
        rw [hg.sequence_eq]
        exact hlt e ((hmem e).mp he) _ List.mem_cons_self
      obtain ⟨m', es', hm', hrep', hes'⟩ := hg.holds.insertInto hrep hbelow (by
        rw [hg.sequence_eq]
        exact hrange.2.trans (Nat.le_succ _))
      refine ⟨m', hm', es', hrep', fun e => ?_⟩
      rw [hes', hmem, List.mem_append, hg.sequence_eq]
      rfl

/-- Entries above the number do not matter to a lookup in the table. -/
theorem MemHolds.get_eq {m m' : MemTable} {es es' : List Entry} (h : MemHolds m es)
    (h' : MemHolds m' (es ++ es')) (hfun : Functional {e | e ∈ es}) (habove : ∀ e ∈ es', s < e.seq)
    (hk : k.length + 8 < 2 ^ 32) (hs : s ≤ kMaxSequenceNumber) : m'.get k s = m.get k s := by
  have hold := h.answers hk hs
  have hnew := (h'.answers hk hs).congr (F := {e | e ∈ es}) fun e _ hle => by
    refine List.mem_append.trans (or_iff_left fun hmem => ?_)
    exact absurd hle (habove e hmem).not_ge
  exact hnew.eq hfun hold

namespace Leader

def inLog : Leader → Bool
  | writing .logged _ _ | writing .inserted _ _ => true
  | _ => false

def inMem : Leader → Bool
  | writing .inserted _ _ => true
  | _ => false

def logged : Leader → ℕ
  | writing .logged _ n | writing .inserted _ n => n
  | _ => 0

theorem logged_eq_zero {leader : Leader} (h : leader.inLog = false) : leader.logged = 0 := by
  match leader with
  | idle | makingRoom _ | writing .grouped _ _ => rfl
  | writing .logged _ _ | writing .inserted _ _ => cases h

theorem inMem_eq_false {leader : Leader} (h : leader.inLog = false) : leader.inMem = false := by
  match leader with
  | idle | makingRoom _ | writing .grouped _ _ => rfl
  | writing .logged _ _ | writing .inserted _ _ => cases h

end Leader

/-- Where the groups are that were written: in the files, in the table set aside, in the other one,
and in the hands of the leader. -/
structure Places where
  flushed : List Group
  imm : List Group
  mem : List Group
  inflight : List Group
  bound : ℕ

namespace Places

def visible (p : Places) : List Group := p.flushed ++ p.imm ++ p.mem

def logged (p : Places) (leader : Leader) : List Group :=
  p.mem ++ if leader.inLog then p.inflight else []

def inserted (p : Places) (leader : Leader) : List Group :=
  p.mem ++ if leader.inMem then p.inflight else []

end Places

def Db.liveLogs (db : Db) : List LogFile :=
  db.oldLogs.filter fun log => db.manifest.logNumber ≤ log.number

def ImmHolds (o : Options) (db : Db) (gs : List Group) : Prop :=
  match db.imm with
  | none => gs = [] ∧ db.liveLogs = []
  | some m => MemHolds m (groupEntries gs) ∧
      ∃ number log synced, db.liveLogs = [⟨number, log.dest, synced⟩] ∧ LogHolds o log synced gs

structure Inv (o : Options) (db : Db) (p : Places) : Prop where
  grow : (groupEntries (p.visible ++ p.inflight)).Pairwise fun e f => e.seq < f.seq
  seq_le : ∀ e ∈ groupEntries p.visible, e.seq ≤ db.versions.lastSequence
  seq_gt : ∀ e ∈ groupEntries p.inflight, db.versions.lastSequence < e.seq
  inRange : ∀ g ∈ p.visible ++ p.inflight, g.InRange
  last_lt : db.versions.lastSequence < kMaxSequenceNumber
  tables : Tables db.versions.current p.bound (groupEntries p.flushed)
  bound_le : p.bound ≤ db.manifest.lastSequence
  mem : MemHolds db.mem (groupEntries (p.inserted db.leader))
  log : LogHolds o db.log db.synced (p.logged db.leader)
  imm : ImmHolds o db p.imm
  manifest_current : db.manifest.current = db.versions.current
  manifest_logNumber : db.manifest.logNumber = db.versions.logNumber
  manifest_last : db.manifest.lastSequence ≤ db.versions.lastSequence
  flushed_le : ∀ e ∈ groupEntries p.flushed, e.seq ≤ db.manifest.lastSequence
  manifest_next : db.manifest.nextFileNumber ≤ db.versions.nextFileNumber
  number_lt : ∀ i, ∀ f ∈ db.versions.current.files i, f.number < db.manifest.nextFileNumber
  logfile_lt : db.logfileNumber < db.versions.nextFileNumber
  logNumber_lt : db.manifest.logNumber < db.manifest.nextFileNumber
  logNumber_le : db.manifest.logNumber ≤ db.logfileNumber
  oldLogs_lt : ∀ log ∈ db.oldLogs, log.number < db.logfileNumber

theorem GetResult.ofSaverState_ofAnswer (a : Option (Option Slice)) :
    ofSaverState (.ofAnswer a) = ofOption a.join := by
  rcases a with _ | _ | _ <;> rfl

theorem lookUp_eq {m : MemTable} {imm : Option MemTable} {v : Version} {a : Option (Option Slice)}
    (hv : v.get k s = .ofAnswer a) :
    lookUp m imm v k s =
      .ofOption ((m.get k s).or ((imm.bind fun imm => imm.get k s).or a)).join := by
  rw [lookUp]
  cases m.get k s with
  | some value => rfl
  | none =>
      cases imm.bind fun imm => imm.get k s with
      | some value => rfl
      | none =>
          rw [hv, GetResult.ofSaverState_ofAnswer]
          rfl

namespace Inv

variable {p : Places}

theorem mem_visible_iff (p : Places) (e : Entry) :
    e ∈ groupEntries p.visible ↔
      e ∈ groupEntries p.flushed ∨ e ∈ groupEntries p.imm ∨ e ∈ groupEntries p.mem := by
  rw [Places.visible, groupEntries_append, groupEntries_append, List.mem_append, List.mem_append,
    or_assoc]

theorem grow_visible (h : Inv o db p) :
    (groupEntries p.visible).Pairwise fun e f => e.seq < f.seq := by
  have hgrow := h.grow
  rw [groupEntries_append] at hgrow
  exact (List.pairwise_append.mp hgrow).1

theorem functional_visible (h : Inv o db p) : Functional {e | e ∈ groupEntries p.visible} :=
  functional_of_grow h.grow_visible

theorem seq_lt (h : Inv o db p) {e f : Entry} (he : e ∈ groupEntries p.flushed)
    (hf : f ∈ groupEntries p.imm ∨ f ∈ groupEntries p.mem) : e.seq < f.seq := by
  have hgrow := h.grow_visible
  rw [Places.visible, List.append_assoc, groupEntries_append, groupEntries_append] at hgrow
  exact (List.pairwise_append.mp hgrow).2.2 e he f (List.mem_append.mpr hf)

theorem seq_lt_mem (h : Inv o db p) {e f : Entry} (he : e ∈ groupEntries p.imm)
    (hf : f ∈ groupEntries p.mem) : e.seq < f.seq := by
  have hgrow := h.grow_visible
  rw [Places.visible, List.append_assoc, groupEntries_append, groupEntries_append] at hgrow
  exact (List.pairwise_append.mp (List.pairwise_append.mp hgrow).2.1).2.2 e he f hf

/-- The entries of the table in memory that a lookup at the last sequence number sees. -/
theorem mem_inserted_iff (h : Inv o db p) {e : Entry} (hle : e.seq ≤ db.versions.lastSequence) :
    e ∈ groupEntries (p.inserted db.leader) ↔ e ∈ groupEntries p.mem := by
  rw [Places.inserted, groupEntries_append, List.mem_append]
  refine or_iff_left fun hmem => ?_
  split at hmem
  · exact absurd hle (h.seq_gt e hmem).not_ge
  · exact List.not_mem_nil hmem

theorem answers_imm (h : Inv o db p) (hk : k.length + 8 < 2 ^ 32) (hs : s ≤ kMaxSequenceNumber) :
    Answers {e | e ∈ groupEntries p.imm} k s (db.imm.bind fun imm => imm.get k s) := by
  have himm := h.imm
  rw [ImmHolds] at himm
  cases hdb : db.imm with
  | none =>
      rw [hdb] at himm
      rw [himm.1]
      exact .notFound fun e he => absurd he List.not_mem_nil
  | some m =>
      rw [hdb] at himm
      exact himm.1.answers hk hs

/-- A lookup at the last sequence number gets what was written last. -/
theorem get_eq (h : Inv o db p) (hk : k.length + 8 < 2 ^ 32) :
    db.get k = .ofOption (lastFor (groupEntries p.visible) k).join := by
  set s := db.versions.lastSequence with hs
  have hmax : s ≤ kMaxSequenceNumber := h.last_lt.le
  set M : Set Entry := {e | e ∈ groupEntries p.mem}
  set I : Set Entry := {e | e ∈ groupEntries p.imm}
  set V := db.versions.current.allEntries
  have hmem : Answers M k s (db.mem.get k s) :=
    (h.mem.answers hk hmax).congr fun e _ hle => h.mem_inserted_iff hle
  have himm : Answers I k s (db.imm.bind fun imm => imm.get k s) := h.answers_imm hk hmax
  obtain ⟨a, hversion, hget⟩ := h.tables.ordered.answers_get k hmax
  have hMI : Newer M I := fun e he f hf _ => h.seq_lt_mem hf he
  have hIV : Newer I V := fun e he f hf _ => h.seq_lt (h.tables.subset f hf) (.inl he)
  have hMV : Newer M V := fun e he f hf _ => h.seq_lt (h.tables.subset f hf) (.inr he)
  have hcode : Answers (M ∪ I ∪ V) k s
      ((db.mem.get k s).or ((db.imm.bind fun imm => imm.get k s).or a)) := by
    rw [Set.union_assoc]
    refine hmem.union ?_ (himm.union hIV hversion)
    exact fun e he f hf => hf.elim (hMI e he f) (hMV e he f)
  -- The history answers what was written last, and the files answer as their history does.
  have hhist : Reads {e | e ∈ groupEntries p.visible} k s (lastFor (groupEntries p.visible) k).join :=
    ⟨_, answers_lastFor h.grow_visible h.seq_le, rfl⟩
  have hsplit : {e | e ∈ groupEntries p.visible} = M ∪ I ∪ {e | e ∈ groupEntries p.flushed} := by
    ext e
    simp only [Set.mem_union, Set.mem_ofPred_eq, mem_visible_iff, M, I]
    tauto
  have hsub : M ∪ I ∪ V ⊆ {e | e ∈ groupEntries p.visible} := by
    rw [hsplit]
    exact Set.union_subset_union_right _ h.tables.subset
  have hsame : SameReads p.bound (M ∪ I ∪ {e | e ∈ groupEntries p.flushed}) (M ∪ I ∪ V) := by
    refine h.tables.same.union ?_ ?_ (hsplit ▸ h.functional_visible)
    · exact fun e he f hf _ => h.seq_lt hf he.symm
    · exact fun e he f hf => he.elim (fun he => hMV e he f hf) fun he => hIV e he f hf
  rw [hsplit] at hhist
  obtain ⟨b, hb, hjoin⟩ := hsame k s _ (h.bound_le.trans h.manifest_last) hhist
  rw [Db.get, lookUp_eq hget, hcode.eq (h.functional_visible.mono hsub) hb, hjoin]

end Inv

end Leveldb

end UnifyFramework
