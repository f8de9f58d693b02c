import UnifyFramework.Leveldb.DbWrites

/-!
# Work in the background

The table that was set aside becomes a file, and files are compacted. Neither is noticed: the
entries move from one place to another, and what a compaction drops was hidden.
-/

namespace UnifyFramework

namespace Leveldb

open Versioned

variable {o : Options} {db db' : Db} {a : Store} {p : Places} {v : Version} {bound : ℕ}

/-- What `WriteLevel0Table` adds: no file for an empty table, else one with its entries, which may
go to a deeper level of the base past which it has no overlap. -/
theorem writeLevel0Table_cases {m : MemTable} {es : List Entry} {number fileSize : ℕ}
    {base : Option Version} {news : List (ℕ × FileMetaData)} (hm : MemHolds m es)
    (hbase : ∀ v ∈ base, v.Ordered)
    (hnews : writeLevel0Table number fileSize m base = some news) :
    (news = [] ∧ es = []) ∨ ∃ level f, news = [(level, f)] ∧ (∃ fs, f.Represents fs) ∧
      (∀ e, e ∈ f.entries ↔ e ∈ es) ∧ f.number = number ∧ level < kNumLevels ∧
      (0 < level → ∃ v ∈ base, v.PassedOver f.smallestUserKey f.largestUserKey level) := by
  obtain ⟨sorted, hrep, hmem⟩ := hm
  rw [writeLevel0Table] at hnews
  by_cases hnil : sorted = []
  · subst hnil
    rw [buildTable_nil hrep] at hnews
    refine .inl ⟨(Option.some.inj hnews).symm, List.eq_nil_iff_forall_not_mem.mpr fun e he => ?_⟩
    exact List.not_mem_nil ((hmem e).mpr he)
  · obtain ⟨f, hf, hfrep, hnumber⟩ := buildTable_cons hrep hnil number fileSize
    rw [hf] at hnews
    have hentries : ∀ e, e ∈ f.entries ↔ e ∈ es := by
      intro e
      rw [hfrep.entries_eq]
      exact hmem e
    cases base with
    | none =>
        exact .inr ⟨0, f, (Option.some.inj hnews).symm, ⟨sorted, hfrep⟩, hentries, hnumber, by decide,
          fun hpos => absurd hpos (Nat.lt_irrefl 0)⟩
    | some v =>
        obtain ⟨level, hlevel, rfl⟩ := Option.map_eq_some_iff.mp hnews
        obtain ⟨hle, hpassed⟩ := (hbase v rfl).pickLevel hlevel
        exact .inr ⟨level, f, rfl, ⟨sorted, hfrep⟩, hentries, hnumber, hle.trans_lt (by decide),
          fun hpos => ⟨v, rfl, hpassed hpos⟩⟩

theorem addable_singleton {level : ℕ} {f : FileMetaData} (hrep : ∃ fs, f.Represents fs)
    (hnumber : ∀ i, ∀ g ∈ v.files i, g.number < f.number) (hnewer : Newer f.entries v.allEntries)
    (hlevel : level < kNumLevels)
    (hpassed : 0 < level → v.PassedOver f.smallestUserKey f.largestUserKey level) :
    v.Addable [(level, f)] where
  represents q hq := List.mem_singleton.mp hq ▸ hrep
  number_lt q hq := List.mem_singleton.mp hq ▸ hnumber
  newer q hq := List.mem_singleton.mp hq ▸ hnewer
  ascending := List.pairwise_singleton _ _
  level_lt q hq := List.mem_singleton.mp hq ▸ hlevel
  passedOver q hq hpos := by
    rw [List.mem_singleton] at hq
    subst hq
    exact ⟨rfl, hpassed hpos⟩

theorem addable_nil (v : Version) : v.Addable [] where
  represents _ hq := absurd hq List.not_mem_nil
  number_lt _ hq := absurd hq List.not_mem_nil
  newer _ hq := absurd hq List.not_mem_nil
  ascending := .nil
  level_lt _ hq := absurd hq List.not_mem_nil
  passedOver _ hq := absurd hq List.not_mem_nil

/-- The files answer as the entries do, with the files that are added and their entries. -/
theorem Tables.add {es es' : List Entry} (h : Tables v bound es) {news : List (ℕ × FileMetaData)}
    (hadd : v.Addable news) (hentries : ∀ e, (∃ q ∈ news, e ∈ q.2.entries) ↔ e ∈ es')
    (hgrow : (es ++ es').Pairwise fun e f => e.seq < f.seq) :
    Tables (v.apply ⟨[], news⟩) bound (es ++ es') := by
  have hmem : ∀ e, e ∈ (v.apply ⟨[], news⟩).allEntries ↔ e ∈ v.allEntries ∨ e ∈ es' := fun e =>
    (Version.mem_allEntries_apply_add hadd.numbersDiffer).trans (or_congr_right (hentries e))
  have hlt := (List.pairwise_append.mp hgrow).2.2
  refine ⟨h.ordered.add hadd, fun e he => ?_, ?_⟩
  · exact List.mem_append.mpr (((hmem e).mp he).imp_left (h.subset e))
  · have hleft : {e | e ∈ es ++ es'} = {e | e ∈ es'} ∪ {e | e ∈ es} := by
      ext e
      exact List.mem_append.trans or_comm
    have hright : (v.apply ⟨[], news⟩).allEntries = {e | e ∈ es'} ∪ v.allEntries := by
      ext e
      exact (hmem e).trans or_comm
    rw [hright, hleft]
    refine h.same.union (fun e he f hf _ => hlt f hf e he)
      (fun e he f hf _ => hlt f (h.subset f hf) e he) ?_
    rw [← hleft]
    exact functional_of_grow hgrow

/-- The table that was set aside gives a file, if any, that is newer than the others. -/
theorem Inv.addable_imm {m : MemTable} {fileSize : ℕ} {news : List (ℕ × FileMetaData)}
    (h : Inv o db p) (hm : MemHolds m (groupEntries p.imm))
    (hnews : writeLevel0Table db.versions.nextFileNumber fileSize m (some db.versions.current) =
      some news) :
    db.versions.current.Addable news ∧
      (∀ e, (∃ q ∈ news, e ∈ q.2.entries) ↔ e ∈ groupEntries p.imm) ∧
      ∀ q ∈ news, q.2.number < db.versions.nextFileNumber + 1 := by
  have hbase : ∀ v ∈ some db.versions.current, v.Ordered := by
    rintro _ ⟨⟩
    exact h.tables.ordered
  rcases writeLevel0Table_cases hm hbase hnews with
    ⟨rfl, hnil⟩ | ⟨level, f, rfl, hrep, hf, hnumber, hlevel, hpassed⟩
  · exact ⟨addable_nil _, fun e => by simp [hnil], fun q hq => absurd hq List.not_mem_nil⟩
  · refine ⟨addable_singleton hrep ?_ ?_ hlevel fun hpos => ?_, fun e => by simp [hf], fun q hq => ?_⟩
    · intro i g hg
      rw [hnumber]
      exact (h.number_lt i g hg).trans_le h.manifest_next
    · exact fun e he e' he' _ => h.seq_lt (h.tables.subset e' he') (.inl ((hf e).mp he))
    · obtain ⟨_, ⟨⟩, hpassed⟩ := hpassed hpos
      exact hpassed
    · rw [List.mem_singleton.mp hq]
      exact hnumber.trans_lt (Nat.lt_succ_self _)

namespace RefinesAt

theorem compactMemTable (h : RefinesAt o db a p) (hstep : db.compactMemTable o = some db') :
    ∃ p', RefinesAt o db' a p' := by
  have hinv := h.inv
  rw [Db.compactMemTable] at hstep
  obtain ⟨m, himm, hstep⟩ := Option.bind_eq_some_iff.mp hstep
  obtain ⟨news, hnews, rfl⟩ := Option.map_eq_some_iff.mp hstep
  have hold := hinv.imm
  rw [ImmHolds, himm] at hold
  obtain ⟨hadd, hentries, hlt⟩ := hinv.addable_imm hold.1 hnews
  have hvisible : (⟨p.flushed ++ p.imm, [], p.mem, p.inflight, p.bound⟩ : Places).visible =
      p.visible := by
    simp [Places.visible]
  have hgrow : (groupEntries p.flushed ++ groupEntries p.imm).Pairwise fun e f => e.seq < f.seq := by
    have hall := hinv.grow_visible
    rw [Places.visible, groupEntries_append, groupEntries_append] at hall
    exact (List.pairwise_append.mp hall).1
  refine ⟨⟨p.flushed ++ p.imm, [], p.mem, p.inflight, p.bound⟩, ?_⟩
  refine { h with
    inv := { hinv with
      grow := by rw [hvisible]; exact hinv.grow
      seq_le := by rw [hvisible]; exact hinv.seq_le
      inRange := by rw [hvisible]; exact hinv.inRange
      tables := by rw [groupEntries_append]; exact hinv.tables.add hadd hentries hgrow
      bound_le := hinv.bound_le.trans hinv.manifest_last
      imm := ⟨rfl, ?_⟩
      manifest_current := rfl
      manifest_logNumber := rfl
      manifest_last := le_rfl
      flushed_le := ?_
      manifest_next := le_rfl
      number_lt := ?_
      logfile_lt := hinv.logfile_lt.trans (Nat.lt_succ_self _)
      logNumber_lt := hinv.logfile_lt.trans (Nat.lt_succ_self _)
      logNumber_le := le_rfl
      oldLogs_lt := fun log hlog => hinv.oldLogs_lt log (List.mem_filter.mp hlog).1 }
    compaction := fun c hc => ⟨(h.compaction c hc).1.add hadd, (h.compaction c hc).2⟩
    commits := by rw [hvisible]; exact h.commits }
  · -- The logs from before the present one are not needed any more.
    refine List.filter_eq_nil_iff.mpr fun log hlog hle => ?_
    exact absurd (of_decide_eq_true hle) (hinv.oldLogs_lt log (List.mem_filter.mp hlog).1).not_ge
  · intro e he
    rw [groupEntries_append, List.mem_append] at he
    exact hinv.seq_le e ((Inv.mem_visible_iff p e).mpr (he.imp_right .inl))
  · intro i f hf
    rcases (Version.mem_apply_add hadd.numbersDiffer).mp hf with hf | hf
    · exact ((hinv.number_lt i f hf).trans_le hinv.manifest_next).trans (Nat.lt_succ_self _)
    · exact hlt _ hf

theorem install (h : RefinesAt o db a p) {c : Compaction} (hc : c.Sound db.versions.current)
    (hsnapshot : c.smallestSnapshot ≤ db.versions.lastSequence) :
    ∃ p', RefinesAt o (db.install o c) a p' := by
  have hinv := h.inv
  obtain ⟨hordered, hcompacts, hnumber⟩ := hc.install hinv.tables.ordered o.tableSize
    fun i g hg => (hinv.number_lt i g hg).trans_le hinv.manifest_next
  have hsame := hcompacts.sameReads (Compaction.functional_allEntries hinv.tables.ordered)
  refine ⟨{ p with bound := max p.bound c.smallestSnapshot }, ?_⟩
  have himm : ImmHolds o (db.install o c) p.imm := by
    have hold := hinv.imm
    have hlive : (db.install o c).liveLogs = db.liveLogs := by
      rw [Db.liveLogs.eq_def db, hinv.manifest_logNumber]
      exact List.filter_filter.trans (List.filter_congr fun log _ => Bool.and_self _)
    rw [ImmHolds] at hold ⊢
    rw [hlive]
    exact hold
  refine { h with
    inv := { hinv with
      tables := ⟨hordered, fun e he => hinv.tables.subset e (hcompacts.subset he), ?_⟩
      bound_le := max_le (hinv.bound_le.trans hinv.manifest_last) hsnapshot
      imm := himm
      manifest_current := rfl
      manifest_logNumber := rfl
      manifest_last := le_rfl
      flushed_le := fun e he => (hinv.flushed_le e he).trans hinv.manifest_last
      manifest_next := le_rfl
      number_lt := hnumber
      logfile_lt := hinv.logfile_lt.trans_le (Nat.le_add_right _ _)
      logNumber_lt := ?_
      logNumber_le := hinv.manifest_logNumber ▸ hinv.logNumber_le
      oldLogs_lt := fun log hlog => hinv.oldLogs_lt log (List.mem_filter.mp hlog).1 }
    compaction := fun c hc => absurd hc (Option.not_mem_none c) }
  · exact (hinv.tables.same.mono (le_max_left _ _)).trans (hsame.mono (le_max_right _ _))
  · have hlt := hinv.logNumber_lt.trans_le hinv.manifest_next
    rw [hinv.manifest_logNumber] at hlt
    exact hlt.trans_le (Nat.le_add_right _ _)

theorem sound_of_pickCompaction {level : ℕ} {f : FileMetaData} {c : Compaction}
    (h : RefinesAt o db a p) (hlevel : level + 1 < kNumLevels)
    (hf : f ∈ db.versions.current.files level)
    (hpick : db.versions.current.pickCompaction level f db.versions.lastSequence = some c) :
    c.Sound db.versions.current ∧ c.inputs0 ≠ [] ∧
      c.smallestSnapshot = db.versions.lastSequence := by
  have hinv := h.inv
  obtain ⟨c', hpick', hpicked, rfl, hversion, hsnapshot⟩ :=
    hinv.tables.ordered.picked_pickCompaction hf db.versions.lastSequence
  obtain rfl : c' = c := Option.some_injective _ (hpick'.symm.trans hpick)
  refine ⟨Compaction.sound_of_picked hinv.tables.ordered hpicked hversion hlevel ?_ ?_,
    hpicked.ne_nil, hsnapshot⟩
  · exact fun e he => hsnapshot ▸ hinv.seq_le e
      ((Inv.mem_visible_iff p e).mpr (.inl (hinv.tables.subset e he)))
  · exact hsnapshot ▸ hinv.last_lt

theorem startCompaction {level i : ℕ} (h : RefinesAt o db a p)
    (hstep : db.startCompaction o level i = some db') : ∃ p', RefinesAt o db' a p' := by
  rw [Db.startCompaction] at hstep
  split at hstep
  · cases hstep
  rename_i hguard
  simp only [not_or, not_le] at hguard
  obtain ⟨f, hf, hstep⟩ := Option.bind_eq_some_iff.mp hstep
  obtain ⟨c, hpick, rfl⟩ := Option.map_eq_some_iff.mp hstep
  obtain ⟨hsound, -, hsnapshot⟩ :=
    h.sound_of_pickCompaction hguard.2.2 (List.mem_of_getElem? hf) hpick
  split
  · exact h.install hsound hsnapshot.le
  · refine ⟨p, { h with
      inv := { h.inv with }
      compaction := ?_ }⟩
    rintro _ ⟨⟩
    exact ⟨hsound, hsnapshot.le⟩

theorem finishCompaction (h : RefinesAt o db a p) (hstep : db.finishCompaction o = some db') :
    ∃ p', RefinesAt o db' a p' := by
  obtain ⟨c, hc, rfl⟩ := Option.map_eq_some_iff.mp hstep
  exact h.install (h.compaction c hc).1 (h.compaction c hc).2

end RefinesAt

end Leveldb

end UnifyFramework
