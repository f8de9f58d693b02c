import Mathlib.Data.List.Flatten
import UnifyFramework.Leveldb.DbBackground

/-!
# After a crash

The logs that are left give back the batches that are completely in them, and these become files of
level zero, each newer than all others. What was synced is there again; nothing is there in part.
-/

namespace UnifyFramework

namespace Leveldb

open Versioned

variable {o : Options} {db : Db} {a : Store} {p : Places} {v : Version} {bound : ℕ}
  {gs : List Group}

def ReadsBack (o : Options) (contents : Slice) (gs : List Group) : Prop :=
  ∃ bs r, List.Forall₂ Group.IsBatch gs bs ∧
    LogReader.readRecords o.crc32c (contents.length + 1) (.new contents) =
      some (bs.map WriteBatch.rep, r)

theorem filter_sublist_take {k j : ℕ} (hrest : ∀ g ∈ gs.drop j, g.sync = false) (hjk : j ≤ k) :
    (gs.filter Group.sync).Sublist (gs.take k) := by
  have hnil : (gs.drop k).filter Group.sync = [] := by
    refine List.filter_eq_nil_iff.mpr fun g hg => ?_
    rw [hrest g ((List.drop_sublist_drop_left gs hjk).subset hg)]
    exact Bool.false_ne_true
  conv_lhs => rw [← List.take_append_drop k gs, List.filter_append, hnil, List.append_nil]
  exact List.filter_sublist

/-- A log that was cut after the bytes that were synced gives the first groups. -/
theorem LogHolds.readsBack {log : LogWriter} {synced : ℕ} (h : LogHolds o log synced gs)
    (extra : ℕ) :
    ∃ k, ReadsBack o (log.dest.take (synced + extra)) (gs.take k) ∧
      (gs.filter Group.sync).Sublist (gs.take k) ∧
      (log.dest.length ≤ synced + extra → gs.take k = gs) := by
  obtain ⟨bs, hbs, hlog, j, hj, hrest, w, hw, hsynced⟩ := h
  have hlength : gs.length = (bs.map WriteBatch.rep).length := by
    rw [List.length_map, hbs.length_eq]
  obtain ⟨w', k, hw', hwithin, hdelivers⟩ :=
    delivers_take o.crc32c (bs.map WriteBatch.rep) (synced + extra)
  obtain rfl := Option.some.inj (hlog.symm.trans hw')
  have hsize : (LogReader.new (log.dest.take (synced + extra))).size =
      (log.dest.take (synced + extra)).length := (stands_new _).size
  obtain ⟨r, hread, -⟩ := hdelivers.readRecords (Nat.lt_succ_of_le hsize.le)
  rw [← List.map_take] at hread
  refine ⟨k, ⟨_, r, List.forall₂_take k hbs, hread⟩, ?_, fun hall => ?_⟩
  · exact filter_sublist_take hrest
      (hwithin.le o.crc32c (hj.trans hlength.le) hw (hsynced.trans (Nat.le_add_right _ _)))
  · refine List.take_of_length_le (hlength.le.trans (hwithin.le o.crc32c le_rfl ?_ hall))
    rw [List.take_length]
    exact hlog

theorem Version.Addable.snoc {news : List (ℕ × FileMetaData)} {f : FileMetaData}
    (h : v.Addable news) (hzero : ∀ q ∈ news, q.1 = 0) (hrep : ∃ fs, f.Represents fs)
    (hnumber : ∀ i, ∀ g ∈ v.files i, g.number < f.number)
    (hnumbers : ∀ q ∈ news, q.2.number < f.number) (hnewer : Newer f.entries v.allEntries)
    (hnewers : ∀ q ∈ news, Newer f.entries q.2.entries) : v.Addable (news ++ [(0, f)]) := by
  have hf : v.Addable [(0, f)] := addable_singleton hrep hnumber hnewer (by decide)
    fun hpos => absurd hpos (Nat.lt_irrefl 0)
  refine ⟨?_, ?_, ?_, ?_, ?_, ?_⟩
  · exact List.forall_mem_append.mpr ⟨h.represents, hf.represents⟩
  · exact List.forall_mem_append.mpr ⟨h.number_lt, hf.number_lt⟩
  · exact List.forall_mem_append.mpr ⟨h.newer, hf.newer⟩
  · refine List.pairwise_append.mpr ⟨h.ascending, hf.ascending, fun q hq q' hq' => ?_⟩
    rw [List.mem_singleton.mp hq']
    exact ⟨hnumbers q hq, hnewers q hq⟩
  · exact List.forall_mem_append.mpr ⟨h.level_lt, hf.level_lt⟩
  · have hzeros : ∀ q ∈ news ++ [(0, f)], q.1 = 0 :=
      List.forall_mem_append.mpr ⟨hzero, List.forall_mem_singleton.mpr rfl⟩
    exact fun q hq hpos => absurd (hzeros q hq) hpos.ne'

theorem exists_writeLevel0Table (number fileSize : ℕ) (m : MemTable) :
    ∃ news, writeLevel0Table number fileSize m none = some news := by
  rw [writeLevel0Table]
  cases buildTable number fileSize m with
  | none => exact ⟨_, rfl⟩
  | some f => exact ⟨_, rfl⟩

namespace Recovery

/-- The files have the groups that are done, and the table has those that are not. -/
structure Holds (v : Version) (done pending : List Group) (r : Recovery) : Prop where
  addable : v.Addable r.news
  level_eq : ∀ q ∈ r.news, q.1 = 0
  entries : ∀ e, (∃ q ∈ r.news, e ∈ q.2.entries) ↔ e ∈ groupEntries done
  mem : MemHolds (r.mem.getD .new) (groupEntries pending)
  number_lt : ∀ i, ∀ f ∈ v.files i, f.number < r.nextFileNumber
  news_lt : ∀ q ∈ r.news, q.2.number < r.nextFileNumber
  seq_le : ∀ g ∈ done ++ pending, g.seq + g.ops.length ≤ r.maxSequence + 1
  max_lt : r.maxSequence < kMaxSequenceNumber

variable {r : Recovery} {es : List Entry} {done pending : List Group}

theorem holds_new (v : Version) {number : ℕ}
    (hnumber : ∀ i, ∀ f ∈ v.files i, f.number < number) : Holds v [] [] ⟨none, [], number, 0⟩ where
  addable := addable_nil v
  level_eq _ hq := absurd hq List.not_mem_nil
  entries e := by simp [groupEntries]
  mem := memHolds_new
  number_lt := hnumber
  news_lt _ hq := absurd hq List.not_mem_nil
  seq_le _ hg := absurd hg List.not_mem_nil
  max_lt := by
    have hpos : 0 < kMaxSequenceNumber := by decide
    exact hpos

theorem Holds.mono (h : r.Holds v done pending) {number : ℕ} (hle : r.nextFileNumber ≤ number) :
    Holds v done pending { r with nextFileNumber := number } :=
  { h with
    number_lt := fun i f hf => (h.number_lt i f hf).trans_le hle
    news_lt := fun q hq => (h.news_lt q hq).trans_le hle }

theorem Holds.addFiles (h : r.Holds v done pending) {news : List (ℕ × FileMetaData)}
    (hadd : v.Addable (r.news ++ news)) (hlevel : ∀ q ∈ news, q.1 = 0)
    (hentries : ∀ e, (∃ q ∈ news, e ∈ q.2.entries) ↔ e ∈ groupEntries pending)
    (hnumber : ∀ q ∈ news, q.2.number = r.nextFileNumber) :
    Holds v (done ++ pending) []
      { r with mem := none, news := r.news ++ news, nextFileNumber := r.nextFileNumber + 1 } where
  addable := hadd
  level_eq := List.forall_mem_append.mpr ⟨h.level_eq, hlevel⟩
  entries e := by
    rw [groupEntries_append, List.mem_append, ← h.entries e, ← hentries e]
    simp only [List.mem_append, or_and_right, exists_or]
  mem := memHolds_new
  number_lt i f hf := (h.number_lt i f hf).trans (Nat.lt_succ_self _)
  news_lt := by
    refine List.forall_mem_append.mpr ⟨fun q hq => ?_, fun q hq => ?_⟩
    · exact (h.news_lt q hq).trans (Nat.lt_succ_self _)
    · exact (hnumber q hq).trans_lt (Nat.lt_succ_self _)
  seq_le := by
    rw [List.append_nil]
    exact h.seq_le
  max_lt := h.max_lt

/-- The table becomes a file, unless it is empty. -/
theorem Holds.writeTable (o : Options) (h : r.Holds v done pending)
    (hv : ∀ e ∈ v.allEntries, e ∈ es)
    (hgrow : (es ++ groupEntries (done ++ pending)).Pairwise fun e f => e.seq < f.seq) :
    ∃ r', r.writeTable o = some r' ∧ r'.Holds v (done ++ pending) [] ∧
      r.nextFileNumber ≤ r'.nextFileNumber := by
  have hmem := h.mem
  rw [groupEntries_append, ← List.append_assoc] at hgrow
  have hlt := (List.pairwise_append.mp hgrow).2.2
  cases hr : r.mem with
  | none =>
      rw [hr, Option.getD_none] at hmem
      refine ⟨r, by rw [Recovery.writeTable, hr], { h with
        entries := fun e => ?_
        mem := by rw [hr]; exact memHolds_new
        seq_le := by rw [List.append_nil]; exact h.seq_le }, le_rfl⟩
      rw [groupEntries_append, hmem.eq_nil, List.append_nil]
      exact h.entries e
  | some m =>
      rw [hr, Option.getD_some] at hmem
      obtain ⟨news, hnews⟩ := exists_writeLevel0Table r.nextFileNumber (o.tableSize.finished m.contents) m
      have hwrite : r.writeTable o = some { r with
          mem := none, news := r.news ++ news, nextFileNumber := r.nextFileNumber + 1 } := by
        rw [Recovery.writeTable, hr]
        dsimp only
        rw [hnews]
        rfl
      refine ⟨_, hwrite, ?_, Nat.le_succ _⟩
      rcases writeLevel0Table_cases hmem (fun _ hv => absurd hv (Option.not_mem_none _)) hnews with
        ⟨rfl, hnil⟩ | ⟨level, f, rfl, hrep, hf, hnumber, -, hpassed⟩
      · refine h.addFiles ?_ (fun _ hq => absurd hq List.not_mem_nil) (fun e => by simp [hnil])
          fun _ hq => absurd hq List.not_mem_nil
        rw [List.append_nil]
        exact h.addable
      · obtain rfl : level = 0 := by
          refine Nat.eq_zero_of_not_pos fun hpos => ?_
          obtain ⟨v, hv, -⟩ := hpassed hpos
          exact absurd hv (Option.not_mem_none v)
        -- What is in the table was read after what is in the files.
        have hnewer : Newer f.entries v.allEntries := fun e he e' he' _ =>
          hlt e' (List.mem_append_left _ (hv e' he')) e ((hf e).mp he)
        have hnewers : ∀ q ∈ r.news, Newer f.entries q.2.entries := fun q hq e he e' he' _ =>
          hlt e' (List.mem_append_right _ ((h.entries e').mp ⟨q, hq, he'⟩)) e ((hf e).mp he)
        have hadd : v.Addable (r.news ++ [(0, f)]) :=
          h.addable.snoc h.level_eq hrep (fun i g hg => hnumber ▸ h.number_lt i g hg)
            (fun q hq => hnumber ▸ h.news_lt q hq) hnewer hnewers
        exact h.addFiles hadd (List.forall_mem_singleton.mpr rfl) (fun e => by simp [hf])
          (List.forall_mem_singleton.mpr hnumber)

/-- The last sequence number of a batch, as it is computed with 64 bits. -/
theorem lastSeq_eq {g : Group} {b : WriteBatch} (hg : g.IsBatch b) (hrange : g.InRange) :
    (b.sequence + b.count + (2 ^ 64 - 1)) % 2 ^ 64 + 1 = g.seq + g.ops.length := by
  obtain ⟨hpos, hle⟩ := hrange
  rw [kMaxSequenceNumber] at hle
  rw [hg.sequence_eq, hg.holds.count_eq]
  omega

/-- A record of the log goes into the table, which becomes a file when it is large. -/
theorem Holds.record (o : Options) (h : r.Holds v done pending) (hv : ∀ e ∈ v.allEntries, e ∈ es)
    {g : Group} {b : WriteBatch} (hg : g.IsBatch b) (hrange : g.InRange)
    (hgrow : (es ++ groupEntries (done ++ (pending ++ [g]))).Pairwise fun e f => e.seq < f.seq) :
    ∃ r' done' pending', r.record o b.rep = some r' ∧ r'.Holds v done' pending' ∧
      done' ++ pending' = done ++ (pending ++ [g]) ∧ r.nextFileNumber ≤ r'.nextFileNumber := by
  have hgrow' : (groupEntries pending ++ g.entries).Pairwise fun e f => e.seq < f.seq := by
    rw [groupEntries_append, groupEntries_append, groupEntries_singleton] at hgrow
    exact (List.pairwise_append.mp (List.pairwise_append.mp hgrow).2.1).2.1
  obtain ⟨m, hm, hmem⟩ := h.mem.insertInto hg hrange hgrow'
  have hlast := lastSeq_eq hg hrange
  set lastSeq := (b.sequence + b.count + (2 ^ 64 - 1)) % 2 ^ 64 with hlastSeq
  have hholds : Holds v done (pending ++ [g])
      { r with mem := some m, maxSequence := max r.maxSequence lastSeq } :=
    { h with
      mem := by
        rw [groupEntries_append, groupEntries_singleton]
        exact hmem
      seq_le := by
        intro f hf
        rw [← List.append_assoc] at hf
        rcases List.mem_append.mp hf with hf | hf
        · exact (h.seq_le f hf).trans (Nat.succ_le_succ (le_max_left _ _))
        · rw [List.mem_singleton.mp hf, ← hlast]
          exact Nat.succ_le_succ (le_max_right _ _)
      max_lt := by
        have hmax := hrange.2
        refine max_lt_iff.mpr ⟨h.max_lt, ?_⟩
        omega }
  rw [Recovery.record, dif_pos b.kHeader_le]
  have hbatch : WriteBatch.setContents b.rep b.kHeader_le = b := rfl
  simp only [hbatch, hm, Option.bind_some, ← hlastSeq]
  split
  · obtain ⟨r', hr', hholds', hle⟩ := hholds.writeTable o hv hgrow
    exact ⟨r', _, _, hr', hholds', List.append_nil _, hle⟩
  · exact ⟨_, done, pending ++ [g], rfl, hholds, rfl, le_rfl⟩

theorem Holds.records (o : Options) (hv : ∀ e ∈ v.allEntries, e ∈ es) {bs : List WriteBatch}
    (hbs : List.Forall₂ Group.IsBatch gs bs) (h : r.Holds v done pending)
    (hrange : ∀ g ∈ gs, g.InRange)
    (hgrow : (es ++ groupEntries (done ++ pending ++ gs)).Pairwise fun e f => e.seq < f.seq) :
    ∃ r' done' pending', records o (bs.map WriteBatch.rep) r = some r' ∧
      r'.Holds v done' pending' ∧ done' ++ pending' = done ++ pending ++ gs ∧
      r.nextFileNumber ≤ r'.nextFileNumber := by
  induction hbs generalizing r done pending with
  | nil => exact ⟨r, done, pending, rfl, h, (List.append_nil _).symm, le_rfl⟩
  | @cons g b gs bs hg _ ih =>
      have hassoc : done ++ pending ++ g :: gs = done ++ (pending ++ [g]) ++ gs := by simp
      rw [hassoc] at hgrow ⊢
      have hfirst : (es ++ groupEntries (done ++ (pending ++ [g]))).Pairwise
          fun e f => e.seq < f.seq := by
        rw [groupEntries_append, ← List.append_assoc] at hgrow
        exact (List.pairwise_append.mp hgrow).1
      obtain ⟨r', done', pending', hr', hholds', hsplit, hle⟩ :=
        h.record o hv hg (hrange g List.mem_cons_self) hfirst
      rw [← hsplit] at hgrow ⊢
      obtain ⟨r'', done'', pending'', hr'', hrest, hsplit', hle'⟩ :=
        ih hholds' (fun g' hg' => hrange g' (List.mem_cons_of_mem g hg')) hgrow
      refine ⟨r'', done'', pending'', ?_, hrest, hsplit', hle.trans hle'⟩
      rw [List.map_cons, Recovery.records, hr', Option.bind_some, hr'']

theorem Holds.logFile (h : r.Holds v done []) (hv : ∀ e ∈ v.allEntries, e ∈ es) {contents : Slice}
    (hread : ReadsBack o contents gs) (hrange : ∀ g ∈ gs, g.InRange)
    (hgrow : (es ++ groupEntries (done ++ gs)).Pairwise fun e f => e.seq < f.seq) :
    ∃ r', r.logFile o contents = some r' ∧ r'.Holds v (done ++ gs) [] ∧
      r.nextFileNumber ≤ r'.nextFileNumber := by
  obtain ⟨bs, reader, hbs, hread⟩ := hread
  rw [← List.append_nil done] at hgrow
  obtain ⟨r', done', pending', hr', hholds', hsplit, hle⟩ := h.records o hv hbs hrange hgrow
  rw [List.append_nil] at hsplit hgrow
  rw [← hsplit] at hgrow ⊢
  obtain ⟨r'', hr'', hholds'', hle'⟩ := hholds'.writeTable o hv hgrow
  refine ⟨r'', ?_, hholds'', hle.trans hle'⟩
  rw [Recovery.logFile, hread, Option.bind_some, hr', Option.bind_some, hr'']

theorem Holds.logFiles (hv : ∀ e ∈ v.allEntries, e ∈ es) {logs : List LogFile}
    {gss : List (List Group)}
    (hlogs : List.Forall₂ (fun log gs => ReadsBack o log.contents gs) logs gss)
    (h : r.Holds v done []) (hrange : ∀ g ∈ gss.flatten, g.InRange)
    (hgrow : (es ++ groupEntries (done ++ gss.flatten)).Pairwise fun e f => e.seq < f.seq) :
    ∃ r', logFiles o logs r = some r' ∧ r'.Holds v (done ++ gss.flatten) [] ∧
      (∀ log ∈ logs, log.number < r'.nextFileNumber) ∧ r.nextFileNumber ≤ r'.nextFileNumber := by
  induction hlogs generalizing r done with
  | nil =>
      refine ⟨r, rfl, ?_, fun _ hlog => absurd hlog List.not_mem_nil, le_rfl⟩
      rw [List.flatten_nil, List.append_nil]
      exact h
  | @cons log gs logs gss hlog _ ih =>
      rw [List.flatten_cons] at hrange
      rw [List.flatten_cons, ← List.append_assoc] at hgrow ⊢
      obtain ⟨hrange, hranges⟩ := List.forall_mem_append.mp hrange
      have hfirst : (es ++ groupEntries (done ++ gs)).Pairwise fun e f => e.seq < f.seq := by
        rw [groupEntries_append, ← List.append_assoc] at hgrow
        exact (List.pairwise_append.mp hgrow).1
      obtain ⟨r', hr', hholds', hle⟩ := h.logFile hv hlog hrange hfirst
      obtain ⟨r'', hr'', hholds'', hlt, hle'⟩ :=
        ih (hholds'.mono (le_max_left r'.nextFileNumber (log.number + 1))) hranges hgrow
      have hnext : max r'.nextFileNumber (log.number + 1) ≤ r''.nextFileNumber := hle'
      refine ⟨r'', ?_, hholds'', ?_, hle.trans ((le_max_left _ _).trans hnext)⟩
      · rw [Recovery.logFiles, hr', Option.bind_some, hr'']
      · exact List.forall_mem_cons.mpr ⟨(le_max_right _ _).trans hnext, hlt⟩

end Recovery

/-- What is on the disk: the files have the groups that were flushed, and from each log that counts
some more are read. -/
structure OnDisk (o : Options) (manifest : VersionSet) (logs : List LogFile)
    (flushed : List Group) (gss : List (List Group)) (bound : ℕ) : Prop where
  grow : (groupEntries (flushed ++ gss.flatten)).Pairwise fun e f => e.seq < f.seq
  inRange : ∀ g ∈ flushed ++ gss.flatten, g.InRange
  tables : Tables manifest.current bound (groupEntries flushed)
  bound_le : bound ≤ manifest.lastSequence
  flushed_le : ∀ e ∈ groupEntries flushed, e.seq ≤ manifest.lastSequence
  last_lt : manifest.lastSequence < kMaxSequenceNumber
  number_lt : ∀ i, ∀ f ∈ manifest.current.files i, f.number < manifest.nextFileNumber
  logNumber_lt : manifest.logNumber < manifest.nextFileNumber
  sorted : (logs.filter fun log => manifest.logNumber ≤ log.number).Pairwise
    fun log log' => log.number ≤ log'.number
  reads : List.Forall₂ (fun log gs => ReadsBack o log.contents gs)
    (logs.filter fun log => manifest.logNumber ≤ log.number) gss

/-- The database opens, and everything that was read is in the files. -/
theorem OnDisk.openDb {manifest : VersionSet} {logs : List LogFile} {flushed : List Group}
    {gss : List (List Group)} (h : OnDisk o manifest logs flushed gss bound) :
    ∃ db, Db.openDb o manifest logs = some db ∧
      RefinesAt o db ⟨[], (flushed ++ gss.flatten).map Group.commit, [], 0⟩
        ⟨flushed ++ gss.flatten, [], [], [], bound⟩ := by
  have hgrow := h.grow
  rw [groupEntries_append] at hgrow
  have hnew : Recovery.Holds manifest.current [] [] ⟨none, [], manifest.nextFileNumber + 1, 0⟩ :=
    Recovery.holds_new _ fun i f hf => (h.number_lt i f hf).trans (Nat.lt_succ_self _)
  obtain ⟨r, hr, hholds, hlt, hle⟩ := hnew.logFiles h.tables.subset h.reads
    (List.forall_mem_append.mp h.inRange).2 hgrow
  rw [List.nil_append] at hholds
  have hsort : (logs.filter fun log => manifest.logNumber ≤ log.number).insertionSort
      (fun a b => a.number ≤ b.number) = logs.filter fun log => manifest.logNumber ≤ log.number :=
    h.sorted.insertionSort_eq
  -- The logs that were read have smaller numbers than the new one, and so have those before.
  have hold : ∀ log ∈ logs, log.number < r.nextFileNumber := by
    intro log hlog
    rcases Nat.lt_or_ge log.number manifest.logNumber with hnumber | hnumber
    · exact (hnumber.trans h.logNumber_lt).trans ((Nat.lt_succ_self _).trans_le hle)
    · exact hlt log (List.mem_filter.mpr ⟨hlog, decide_eq_true hnumber⟩)
  refine ⟨_, by rw [Db.openDb, hsort, hr]; rfl, ?_⟩
  have hvisible : (⟨flushed ++ gss.flatten, [], [], [], bound⟩ : Places).visible =
      flushed ++ gss.flatten := by simp [Places.visible]
  have hseq : ∀ e ∈ groupEntries (flushed ++ gss.flatten),
      e.seq ≤ max manifest.lastSequence r.maxSequence := by
    intro e he
    rw [groupEntries_append, List.mem_append] at he
    rcases he with he | he
    · exact (h.flushed_le e he).trans (le_max_left _ _)
    · obtain ⟨g, hg, he⟩ := List.mem_flatMap.mp he
      have hg := hholds.seq_le g (by rwa [List.append_nil])
      have he := (seq_of_mem_opEntries he).2
      exact (by omega : e.seq ≤ r.maxSequence).trans (le_max_right _ _)
  refine
    { inv :=
        { grow := by rw [hvisible, List.append_nil]; exact h.grow
          seq_le := by rw [hvisible]; exact hseq
          seq_gt := fun e he => absurd he List.not_mem_nil
          inRange := by rw [hvisible, List.append_nil]; exact h.inRange
          last_lt := max_lt h.last_lt hholds.max_lt
          tables := by
            rw [groupEntries_append]
            exact h.tables.add hholds.addable hholds.entries hgrow
          bound_le := h.bound_le.trans (le_max_left _ _)
          mem := memHolds_new
          log := logHolds_new o
          imm := ⟨rfl, ?_⟩
          manifest_current := rfl
          manifest_logNumber := rfl
          manifest_last := le_rfl
          flushed_le := hseq
          manifest_next := le_rfl
          number_lt := ?_
          logfile_lt := Nat.lt_succ_self _
          logNumber_lt := Nat.lt_succ_self _
          logNumber_le := le_rfl
          oldLogs_lt := fun log hlog => hold log (List.mem_filter.mp hlog).1 }
      writers := .nil
      leader := rfl
      compaction := fun c hc => absurd hc (Option.not_mem_none c)
      readers := .nil
      commits := by rw [hvisible]
      logged := rfl }
  · refine List.filter_eq_nil_iff.mpr fun log hlog hle => ?_
    exact absurd (of_decide_eq_true hle) (hold log (List.mem_filter.mp hlog).1).not_ge
  · intro i f hf
    rcases (Version.mem_apply_add hholds.addable.numbersDiffer).mp hf with hf | hf
    · exact (hholds.number_lt i f hf).trans (Nat.lt_succ_self _)
    · exact (hholds.news_lt _ hf).trans (Nat.lt_succ_self _)

/-- A crash that leaves all bytes of the logs, as when only the process ends. -/
def Db.LeavesAll (db : Db) (extra : ℕ → ℕ) : Prop :=
  ∀ log ∈ db.oldLogs ++ [db.logFile], log.contents.length ≤ log.synced + extra log.number

instance (db : Db) (extra : ℕ → ℕ) : Decidable (db.LeavesAll extra) :=
  inferInstanceAs (Decidable (∀ log ∈ db.oldLogs ++ [db.logFile], _ ≤ _))

/-- What is read again from the log of the table that was set aside, if there is one. -/
theorem ImmHolds.readsBack (h : ImmHolds o db gs) (extra : ℕ → ℕ) :
    ∃ gss, List.Forall₂ (fun log gs => ReadsBack o log.contents gs)
        (db.liveLogs.map (LogFile.crash extra)) gss ∧
      db.liveLogs.Pairwise (fun log log' => log.number ≤ log'.number) ∧
      gss.flatten.Sublist gs ∧ (gs.filter Group.sync).Sublist gss.flatten ∧
      (db.LeavesAll extra → gss.flatten = gs) := by
  rw [ImmHolds] at h
  cases himm : db.imm with
  | none =>
      rw [himm] at h
      obtain ⟨rfl, hlive⟩ := h
      rw [hlive]
      exact ⟨[], .nil, .nil, List.Sublist.refl [], List.Sublist.refl [], fun _ => rfl⟩
  | some m =>
      rw [himm] at h
      obtain ⟨-, number, log, synced, hlive, hlog⟩ := h
      obtain ⟨k, hread, hsynced, hall⟩ := hlog.readsBack (extra number)
      have hmem : (⟨number, log.dest, synced⟩ : LogFile) ∈ db.oldLogs := by
        have hmem : (⟨number, log.dest, synced⟩ : LogFile) ∈ db.liveLogs := by
          rw [hlive]
          exact List.mem_singleton_self _
        exact (List.mem_filter.mp hmem).1
      rw [hlive]
      refine ⟨[gs.take k], .cons hread .nil, List.pairwise_singleton _ _, ?_⟩
      rw [List.flatten_singleton]
      exact ⟨List.take_sublist k gs, hsynced, fun hleaves =>
        hall (hleaves _ (List.mem_append_left _ hmem))⟩

structure Kept (p : Places) (leader : Leader) (kept : List Group) : Prop where
  sublist : kept.Sublist (p.flushed ++ p.imm ++ p.logged leader)
  synced : (p.visible.filter Group.sync).Sublist kept

theorem Places.written_sublist (p : Places) (leader : Leader) :
    (p.flushed ++ p.imm ++ p.logged leader).Sublist (p.visible ++ p.inflight) := by
  rw [Places.logged, Places.visible, ← List.append_assoc]
  split
  · exact List.Sublist.refl _
  · exact List.Sublist.append_left (List.nil_sublist _) _

theorem Inv.onDisk (h : Inv o db p) (extra : ℕ → ℕ) :
    ∃ gss, OnDisk o db.manifest ((db.oldLogs ++ [db.logFile]).map (LogFile.crash extra)) p.flushed
        gss p.bound ∧
      Kept p db.leader (p.flushed ++ gss.flatten) ∧
      (db.LeavesAll extra → p.visible <+: p.flushed ++ gss.flatten) := by
  obtain ⟨gss, hreads, hsorted, hsub, hsynced, hall⟩ := h.imm.readsBack extra
  obtain ⟨k, hread, hsynced', hall'⟩ := h.log.readsBack (extra db.logfileNumber)
  set klog := (p.logged db.leader).take k
  have hflatten : (gss ++ [klog]).flatten = gss.flatten ++ klog := by simp
  have hmem : p.mem.Sublist (p.logged db.leader) := List.sublist_append_left _ _
  have hkept : (p.flushed ++ (gss ++ [klog]).flatten).Sublist
      (p.flushed ++ p.imm ++ p.logged db.leader) := by
    rw [hflatten, List.append_assoc]
    exact (hsub.append (List.take_sublist k _)).append_left p.flushed
  have hwritten := hkept.trans (p.written_sublist db.leader)
  have hfilter : (((db.oldLogs ++ [db.logFile]).map (LogFile.crash extra)).filter
      fun log => db.manifest.logNumber ≤ log.number) =
        (db.liveLogs ++ [db.logFile]).map (LogFile.crash extra) := by
    have hlast : [db.logFile].filter (fun log => decide (db.manifest.logNumber ≤ log.number)) =
        [db.logFile] := List.filter_eq_self.mpr (List.forall_mem_singleton.mpr
      (decide_eq_true h.logNumber_le))
    have hsame : ((db.oldLogs ++ [db.logFile]).filter
        fun log => decide (db.manifest.logNumber ≤ log.number)) = db.liveLogs ++ [db.logFile] := by
      rw [List.filter_append, hlast, Db.liveLogs]
    rw [← hsame]
    exact List.filter_map
  refine ⟨gss ++ [klog], ?_, ⟨hkept, ?_⟩, fun hleaves => ?_⟩
  · refine
      { grow := h.grow.sublist (hwritten.flatMap Group.entries)
        inRange := fun g hg => h.inRange g (hwritten.subset hg)
        tables := h.manifest_current ▸ h.tables
        bound_le := h.bound_le
        flushed_le := h.flushed_le
        last_lt := h.manifest_last.trans_lt h.last_lt
        number_lt := h.manifest_current ▸ h.number_lt
        logNumber_lt := h.logNumber_lt
        sorted := ?_
        reads := ?_ }
    · rw [hfilter, List.pairwise_map]
      refine List.pairwise_append.mpr ⟨hsorted, List.pairwise_singleton _ _, ?_⟩
      intro log hlog log' hlog'
      rw [List.mem_singleton.mp hlog']
      exact (h.oldLogs_lt log (List.mem_filter.mp hlog).1).le
    · rw [hfilter, List.map_append]
      exact List.rel_append hreads (.cons hread .nil)
  · rw [hflatten, Places.visible, List.append_assoc, List.filter_append, List.filter_append]
    exact List.filter_sublist.append (hsynced.append ((hmem.filter _).trans hsynced'))
  · have hlast : klog = p.logged db.leader :=
      hall' (hleaves _ (List.mem_append_right _ (List.mem_singleton_self _)))
    rw [hflatten, hall hleaves, hlast, Places.logged, Places.visible, ← List.append_assoc,
      ← List.append_assoc]
    exact List.prefix_append _ _

end Leveldb

end UnifyFramework
