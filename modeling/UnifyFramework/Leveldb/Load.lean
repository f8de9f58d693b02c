import UnifyFramework.Leveldb.DbRefinement
import UnifyFramework.Versioned.Levels

/-!
# The load of the database

An entry that is written waits in the queue, goes to the table in memory and to a file, and then down
the levels, unless it is dropped. The load is what is left of these ways. A write joins it, and nothing
else adds to it; each compaction takes something away.
-/

namespace UnifyFramework

namespace Leveldb

open Versioned

variable {o : Options} {db db' : Db} {a : Store} {p : Places} {v : Version} {c : Compaction}

noncomputable def Version.weight (v : Version) : ℕ := Versioned.weight kNumLevels v.entries

def countOf (writers : List Writer) : ℕ :=
  (writers.map fun w => (w.batch.map WriteBatch.count).getD 0).sum

def Leader.inserted : Leader → ℕ
  | writing .inserted _ n => n
  | _ => 0

namespace Db

/-- The updates that are in no file yet. -/
def unwritten (db : Db) : ℕ :=
  (db.imm.elim 0 fun m => m.table.length) + db.mem.table.length +
    countOf (db.writers.drop db.leader.inserted)

noncomputable def load (db : Db) : ℕ := db.versions.current.weight + kNumLevels * db.unwritten

def numbers (db : Db) : ℕ := db.versions.lastSequence + countOf db.writers

/-- Updates move on, and none is added. -/
structure Moves (db db' : Db) : Prop where
  load_le : db'.load ≤ db.load
  numbers_eq : db'.numbers = db.numbers

end Db

namespace Compaction

/-- The inputs of the level of the compaction leave it, and the outputs have nothing else that is new
to the next level. -/
theorem Sound.weight_lt (h : c.Sound v) (hv : v.Ordered) (hfinite : v.allEntries.Finite)
    (hne : c.inputs0 ≠ []) {outs : List FileMetaData} (hrep : c.Replaces v outs) :
    (v.apply (c.editOf outs)).weight < v.weight := by
  refine Versioned.weight_lt (M := {e | ∃ f ∈ c.inputs0, e ∈ f.entries}) h.level_lt
    (fun i => hfinite.subset fun e he => ⟨i, he⟩) ?_ ?_ ?_ ?_ fun i hi hnext e he => ?_
  · rintro e ⟨f, hf, he⟩
    exact ⟨f, h.subset0 f hf, he⟩
  · obtain ⟨f, fs, hinputs⟩ := List.exists_cons_of_ne_nil hne
    have hf : f ∈ c.inputs0 := hinputs ▸ List.mem_cons_self
    obtain ⟨es, hes⟩ := hv.represents _ f (h.subset0 f hf)
    obtain ⟨e, he, -⟩ := hes.exists_smallest
    exact ⟨e, f, hf, hes.entries_eq ▸ he⟩
  · intro e he
    rcases mem_entries_apply_editOf hv h hrep he with ⟨f, hf, hnot, -, he⟩ | ⟨hlevel, -⟩
    · refine ⟨⟨f, hf, he⟩, ?_⟩
      rintro ⟨g, hg, he'⟩
      exact absurd (h.newer0 f hf (hnot rfl) g hg e he e he' rfl) (Nat.lt_irrefl _)
    · omega
  · intro e he
    rcases mem_entries_apply_editOf hv h hrep he with ⟨f, hf, -, -, he⟩ | ⟨-, f, hf, he⟩
    · exact .inl ⟨f, hf, he⟩
    · rcases List.mem_append.mp hf with hf | hf
      · exact .inr ⟨f, hf, he⟩
      · exact .inl ⟨f, h.subset1 f hf, he⟩
  · rcases mem_entries_apply_editOf hv h hrep he with ⟨f, hf, -, -, he⟩ | ⟨hlevel, -⟩
    · exact ⟨f, hf, he⟩
    · exact absurd hlevel hnext

end Compaction

theorem Inv.finite_allEntries (h : Inv o db p) : db.versions.current.allEntries.Finite :=
  (List.finite_toSet (groupEntries p.flushed)).subset h.tables.subset

/-- A compaction that is installed takes something of the load away. -/
theorem RefinesAt.load_install (h : RefinesAt o db a p) (hc : c.Sound db.versions.current)
    (hne : c.inputs0 ≠ []) : (db.install o c).load < db.load := by
  obtain ⟨outs, hedit, hrep, -⟩ := hc.exists_editOf h.inv.tables.ordered o.tableSize
    fun i g hg => (h.inv.number_lt i g hg).trans_le h.inv.manifest_next
  have hlt := hc.weight_lt h.inv.tables.ordered h.inv.finite_allEntries hne hrep
  rw [← hedit] at hlt
  exact Nat.add_lt_add_right hlt _

theorem length_opEntries (seq : ℕ) (ops : List Op) : (opEntries seq ops).length = ops.length := by
  induction ops generalizing seq with
  | nil => rfl
  | cons op ops ih => rw [opEntries, List.length_cons, ih, List.length_cons]

theorem MemHolds.length_table {m : MemTable} {es : List Entry} (h : MemHolds m es)
    (hgrow : es.Pairwise fun e f => e.seq < f.seq) : m.table.length = es.length := by
  obtain ⟨sorted, hrep, hmem⟩ := h
  have hsorted : sorted.Nodup := hrep.sorted.imp fun {e f} hbefore heq => by
    subst heq
    exact Differ.of_before hbefore rfl rfl
  have hes : es.Nodup := hgrow.imp fun {e f} hlt heq => absurd (heq ▸ hlt) (Nat.lt_irrefl _)
  rw [hrep.table_eq, List.length_map]
  exact ((List.perm_ext_iff_of_nodup hsorted hes).mpr hmem).length_eq

/-- Files that are added to one level bring at most the weight that their entries had in a table. -/
theorem Version.weight_add_le (hfinite : v.allEntries.Finite) {news : List (ℕ × FileMetaData)}
    (hadd : v.Addable news) {level : ℕ} (hlevel : level < kNumLevels)
    (hnews : ∀ q ∈ news, q.1 = level) {es : List Entry}
    (hentries : ∀ q ∈ news, ∀ e ∈ q.2.entries, e ∈ es) :
    (v.apply ⟨[], news⟩).weight ≤ v.weight + kNumLevels * es.length := by
  have hmem : ∀ {i f}, f ∈ (v.apply ⟨[], news⟩).files i ↔ f ∈ v.files i ∨ (i, f) ∈ news :=
    mem_apply_add hadd.numbersDiffer
  have hcard : {e | e ∈ es}.ncard ≤ es.length := by
    rw [← List.coe_toFinset, Set.ncard_coe_finset]
    exact List.toFinset_card_le es
  have hweight : (v.apply ⟨[], news⟩).weight ≤ v.weight + kNumLevels * {e | e ∈ es}.ncard := by
    refine Versioned.weight_le_add hlevel (fun i => hfinite.subset fun e he => ⟨i, he⟩)
      (List.finite_toSet es) ?_ ?_
    · rintro e ⟨f, hf, he⟩
      rcases hmem.mp hf with hf | hf
      · exact .inl ⟨f, hf, he⟩
      · exact .inr (hentries _ hf e he)
    · rintro i hi e ⟨f, hf, he⟩
      rcases hmem.mp hf with hf | hf
      · exact ⟨f, hf, he⟩
      · exact absurd (hnews _ hf) hi
  exact hweight.trans (Nat.add_le_add_left (Nat.mul_le_mul_left _ hcard) _)

/-- A table that becomes a file does not add to the load. -/
theorem RefinesAt.load_compactMemTable (h : RefinesAt o db a p)
    (hstep : db.compactMemTable o = some db') : db'.load ≤ db.load := by
  have hinv := h.inv
  rw [Db.compactMemTable] at hstep
  obtain ⟨m, himm, hstep⟩ := Option.bind_eq_some_iff.mp hstep
  obtain ⟨news, hnews, rfl⟩ := Option.map_eq_some_iff.mp hstep
  have hold := hinv.imm
  rw [ImmHolds, himm] at hold
  obtain ⟨hadd, hentries, -⟩ := hinv.addable_imm hold.1 hnews
  have hlevel : ∃ level < kNumLevels, ∀ q ∈ news, q.1 = level := by
    have hbase : ∀ v ∈ some db.versions.current, v.Ordered := by
      rintro _ ⟨⟩
      exact hinv.tables.ordered
    rcases writeLevel0Table_cases hold.1 hbase hnews with ⟨rfl, -⟩ | ⟨level, f, rfl, -, -, -, hlt, -⟩
    · exact ⟨0, by decide, fun q hq => absurd hq List.not_mem_nil⟩
    · exact ⟨level, hlt, fun q hq => by rw [List.mem_singleton.mp hq]⟩
  have hlength : m.table.length = (groupEntries p.imm).length := by
    refine hold.1.length_table ?_
    have hgrow := hinv.grow_visible
    rw [Places.visible, groupEntries_append, groupEntries_append] at hgrow
    exact (List.pairwise_append.mp (List.pairwise_append.mp hgrow).1).2.1
  obtain ⟨level, hlt, hat⟩ := hlevel
  have hweight := Version.weight_add_le hinv.finite_allEntries hadd hlt hat
    fun q hq e he => (hentries e).mp ⟨q, hq, he⟩
  rw [← hlength] at hweight
  have hsplit : db.unwritten = m.table.length + (db.mem.table.length +
      countOf (db.writers.drop db.leader.inserted)) := by
    rw [Db.unwritten, himm, Option.elim_some, Nat.add_assoc]
  rw [Db.load, Db.load, hsplit, Nat.mul_add, ← Nat.add_assoc]
  refine Nat.add_le_add hweight (Nat.mul_le_mul_left _ ?_)
  change 0 + db.mem.table.length + countOf (db.writers.drop db.leader.inserted) ≤ _
  rw [Nat.zero_add]

theorem countOf_take_add_drop (n : ℕ) (ws : List Writer) :
    countOf (ws.take n) + countOf (ws.drop n) = countOf ws := by
  rw [countOf, countOf, countOf, List.map_take, List.map_drop, List.sum_take_add_sum_drop]

/-- The updates of the writers are the operations of their writes. -/
theorem countOf_eq {ws : List Writer} {pending : List Write}
    (h : List.Forall₂ WriterHolds ws pending) : countOf ws = (Store.opsOf pending).length := by
  induction h with
  | nil => rfl
  | @cons w write ws pending hw _ ih =>
      have hfirst : (w.batch.map WriteBatch.count).getD 0 = (write.ops.getD []).length := by
        obtain ⟨batch, sync⟩ := w
        obtain ⟨ops, sync'⟩ := write
        obtain ⟨hbatch, -⟩ := hw
        cases hbatch with
        | none => rfl
        | some hholds => exact hholds.count_eq
      rw [Store.opsOf, List.flatMap_cons, List.length_append, ← hfirst]
      exact congrArg _ ih

namespace RefinesAt

theorem count_eq (h : RefinesAt o db a p) {progress : Progress} {updates : WriteBatch} {n : ℕ}
    (hleader : db.leader = .writing progress updates n) :
    updates.count = countOf (db.writers.take n) := by
  obtain ⟨g, -, hg⟩ := h.exists_group hleader
  have hops : g.ops = Store.opsOf (a.pending.take n) := congrArg Commit.ops hg.commit_eq
  rw [hg.batch.holds.count_eq, hops, countOf_eq (List.forall₂_take n h.writers)]

theorem load_insertInto (h : RefinesAt o db a p) (hstep : db.insertInto = some db') :
    db'.load = db.load := by
  have h' := h.insertInto hstep
  rw [Db.insertInto] at hstep
  split at hstep
  · rename_i updates n hleader
    obtain ⟨r, -, rfl⟩ := Option.map_eq_some_iff.mp hstep
    have hgrow : (groupEntries (p.mem ++ p.inflight)).Pairwise fun e f => e.seq < f.seq := by
      have hgrow := h.inv.grow
      rw [Places.visible, List.append_assoc, groupEntries_append] at hgrow
      exact (List.pairwise_append.mp hgrow).2.1
    have hnew : r.2.table.length = (groupEntries (p.mem ++ p.inflight)).length :=
      h'.inv.mem.length_table hgrow
    have hold : db.mem.table.length = (groupEntries p.mem).length := by
      have hmem := h.inv.mem
      rw [hleader] at hmem
      have hmem : MemHolds db.mem (groupEntries (p.mem ++ [])) := hmem
      rw [List.append_nil] at hmem
      rw [groupEntries_append] at hgrow
      exact hmem.length_table (List.pairwise_append.mp hgrow).1
    obtain ⟨g, hinflight, hg⟩ := h.exists_group hleader
    have hcount : updates.count = g.entries.length := by
      rw [hg.batch.holds.count_eq, Group.entries, length_opEntries]
    rw [hinflight, groupEntries_append, groupEntries_singleton, List.length_append, ← hold, ← hcount,
      h.count_eq hleader] at hnew
    have hqueue := countOf_take_add_drop n db.writers
    have hunwritten : Db.unwritten { db with mem := r.2, leader := .writing .inserted updates n } =
        db.unwritten := by
      rw [Db.unwritten, Db.unwritten, hleader]
      dsimp only [Leader.inserted]
      rw [hnew, List.drop_zero]
      omega
    rw [Db.load, hunwritten]
    rfl
  · cases hstep

theorem moves_insertInto (h : RefinesAt o db a p) (hstep : db.insertInto = some db') :
    db.Moves db' := by
  refine ⟨(h.load_insertInto hstep).le, ?_⟩
  rw [Db.insertInto] at hstep
  split at hstep
  · obtain ⟨r, -, rfl⟩ := Option.map_eq_some_iff.mp hstep
    rfl
  · cases hstep

theorem moves_finish (h : RefinesAt o db a p) (hstep : db.finish = some db') : db.Moves db' := by
  rw [Db.finish] at hstep
  split at hstep
  · rename_i updates n hleader
    obtain rfl := Option.some.inj hstep
    refine ⟨le_of_eq ?_, ?_⟩
    · rw [Db.load, Db.load, Db.unwritten, Db.unwritten, hleader]
      rfl
    · rw [Db.numbers, Db.numbers, ← countOf_take_add_drop n db.writers, ← h.count_eq hleader,
        Nat.add_assoc]
  · cases hstep

theorem moves_compactMemTable (h : RefinesAt o db a p) (hstep : db.compactMemTable o = some db') :
    db.Moves db' := by
  refine ⟨h.load_compactMemTable hstep, ?_⟩
  obtain ⟨m, -, hstep⟩ := Option.bind_eq_some_iff.mp hstep
  obtain ⟨news, -, rfl⟩ := Option.map_eq_some_iff.mp hstep
  rfl

end RefinesAt

namespace Db

theorem moves_lead (hstep : db.lead = some db') : db.Moves db' := by
  rw [lead] at hstep
  split at hstep
  · rename_i hleader _
    obtain rfl := Option.some.inj hstep
    refine ⟨le_of_eq ?_, rfl⟩
    rw [load, load, unwritten, unwritten, hleader]
    rfl
  · cases hstep

theorem moves_addRecord (hstep : db.addRecord o = some db') : db.Moves db' := by
  rw [addRecord] at hstep
  split at hstep
  · rename_i hleader _
    obtain ⟨log, -, rfl⟩ := Option.map_eq_some_iff.mp hstep
    refine ⟨le_of_eq ?_, rfl⟩
    rw [load, load, unwritten, unwritten, hleader]
    rfl
  · cases hstep

theorem moves_group {force : Bool} (hleader : db.leader = .makingRoom force)
    (hstep : db.group = some db') : db.Moves db' := by
  rw [group] at hstep
  split at hstep
  · cases hstep
  · -- a writer without a batch has no updates
    rename_i sync ws hdb
    obtain rfl := Option.some.inj hstep
    have hcount : countOf db.writers = countOf ws := by
      rw [hdb, countOf, List.map_cons, List.sum_cons]
      exact Nat.zero_add _
    refine ⟨le_of_eq ?_, ?_⟩
    · rw [load, load, unwritten, unwritten, hleader]
      dsimp only [Leader.inserted]
      rw [List.drop_zero, List.drop_zero, hcount]
    · rw [numbers, numbers, hcount]
  · dsimp only at hstep
    split at hstep
    · obtain rfl := Option.some.inj hstep
      refine ⟨le_of_eq ?_, rfl⟩
      rw [load, load, unwritten, unwritten, hleader]
      rfl
    · cases hstep

theorem moves_switchMemTable {force : Bool} (hleader : db.leader = .makingRoom force)
    (himm : db.imm = none) : db.Moves db.switchMemTable := by
  refine ⟨le_of_eq ?_, rfl⟩
  rw [load, load, unwritten, unwritten, hleader, himm]
  change _ + kNumLevels * (db.mem.table.length + 0 + _) = _ + kNumLevels * (0 + db.mem.table.length + _)
  rw [Nat.add_zero, Nat.zero_add]
  rfl

end Db

end Leveldb

end UnifyFramework
