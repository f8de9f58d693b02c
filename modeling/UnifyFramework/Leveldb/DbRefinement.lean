import UnifyFramework.Leveldb.Recovery
import UnifyFramework.Transition.Trace

/-!
# The database and the store

Each step of the database is a step of the store, so whatever writers, readers, the work in the
background and crashes do, in any order, the database answers as a store that takes one commit after
the other. From there: lookups get what was committed, a read gets the value of its beginning, and a
crash leaves what was synced.
-/

namespace UnifyFramework

namespace Leveldb

variable {o : Options} {db db' : Db} {a : Store} {p : Places} {key : Slice} {extra : ℕ → ℕ}

namespace RefinesAt

theorem get_eq (h : RefinesAt o db a p) (hkey : key.length + 8 < 2 ^ 32) :
    db.get key = .ofOption a.contents[key]? := by
  rw [h.inv.get_eq hkey, Store.contents, h.commits,
    Store.getElem?_replay (writes_groupEntries p.visible)]

/-- What the log has of the leader's group is the commit under way. -/
theorem logged_eq (h : RefinesAt o db a p) :
    (p.flushed ++ p.imm ++ p.logged db.leader).map Group.commit = a.commits ++ a.underWay := by
  rw [Places.logged, ← List.append_assoc, List.map_append, h.commits]
  refine congrArg _ ?_
  rw [Store.underWay, h.logged]
  cases hleader : db.leader with
  | idle => rfl
  | makingRoom force => rfl
  | writing progress updates n =>
      obtain ⟨g, hinflight, hg⟩ := h.exists_group hleader
      cases progress with
      | grouped => rfl
      | logged | inserted =>
          rw [Leader.inLog, if_pos rfl, Leader.logged, if_neg hg.pos.ne', hinflight,
            List.map_singleton, hg.commit_eq]

/-- After a crash the database opens again, and the store has had a crash. -/
theorem crash (h : RefinesAt o db a p) (extra : ℕ → ℕ) :
    ∃ db' commits, db.crash o extra = some db' ∧ Refines o db' ⟨[], commits, [], 0⟩ ∧
      (a.commits.filter Commit.sync).Sublist commits ∧
      commits.Sublist (a.commits ++ a.underWay) ∧
      (db.LeavesAll extra → a.commits <+: commits) := by
  obtain ⟨gss, hdisk, hkept, hall⟩ := h.inv.onDisk extra
  obtain ⟨db', hopen, hrefines⟩ := hdisk.openDb
  refine ⟨db', _, hopen, ⟨_, hrefines⟩, ?_, ?_, fun hleaves => ?_⟩
  · rw [h.commits, List.filter_map]
    exact hkept.synced.map Group.commit
  · rw [← h.logged_eq]
    exact hkept.sublist.map Group.commit
  · rw [h.commits]
    exact (hall hleaves).map Group.commit

end RefinesAt

theorem Refines.step {e : Event} (h : Refines o db a) (hstep : db.step o e = some db') :
    ∃ a', Store.Step e a a' ∧ Refines o db' a' := by
  obtain ⟨p, h⟩ := h
  cases e with
  | write ops sync => exact ⟨_, .write ops sync, p, h.write hstep⟩
  | lead => exact ⟨a, .internal rfl nofun, h.lead hstep⟩
  | makeRoom =>
      rcases h.makeRoom hstep with ⟨sync, rest, hpending, hrest⟩ | hsame
      · exact ⟨_, .skip hpending, hrest⟩
      · exact ⟨a, .internal rfl nofun, hsame⟩
  | addRecord =>
      obtain ⟨hnone, n, hpos, hle, hlogged⟩ := h.addRecord hstep
      exact ⟨_, .log hnone hpos hle, p, hlogged⟩
  | insertInto => exact ⟨a, .internal rfl nofun, p, h.insertInto hstep⟩
  | finish =>
      obtain ⟨hpos, hle, hrest⟩ := h.finish hstep
      exact ⟨_, .commit hpos hle, hrest⟩
  | compactMemTable => exact ⟨a, .internal rfl nofun, h.compactMemTable hstep⟩
  | startCompaction level i => exact ⟨a, .internal rfl nofun, h.startCompaction hstep⟩
  | finishCompaction => exact ⟨a, .internal rfl nofun, h.finishCompaction hstep⟩
  | beginRead key => exact ⟨_, .beginRead key, p, h.beginRead hstep⟩
  | endRead i => exact ⟨_, .endRead i, p, h.endRead hstep⟩
  | crash extra =>
      obtain ⟨db'', commits, hcrash, hrefines, hsynced, hsub, -⟩ := h.crash extra
      obtain rfl := Option.some.inj (hcrash.symm.trans hstep)
      exact ⟨_, .crash extra hsynced hsub, hrefines⟩

def Db.after (o : Options) (es : List Event) : Option Db :=
  (Db.openDb o Db.newManifest []).bind fun db => Transition.run (Db.step o) db es

theorem ordered_empty : Version.Ordered ⟨fun _ => []⟩ where
  represents _ _ hf := absurd hf List.not_mem_nil
  nodup := List.nodup_nil
  number_inj _ _ hf := absurd hf List.not_mem_nil
  newest _ hf := absurd hf List.not_mem_nil
  disjoint _ _ := .nil
  deeper _ _ _ _ he := absurd he.choose_spec.1 List.not_mem_nil
  files_eq_nil _ _ := rfl

theorem tables_empty : Tables ⟨fun _ => []⟩ 0 [] := by
  have hnone : ∀ e, e ∉ (⟨fun _ => []⟩ : Version).allEntries := by
    rintro e ⟨level, f, hf, -⟩
    exact absurd hf List.not_mem_nil
  refine ⟨ordered_empty, fun e he => absurd he (hnone e), ?_⟩
  have hsame : {e | e ∈ ([] : List Entry)} = (⟨fun _ => []⟩ : Version).allEntries := by
    ext e
    exact ⟨fun he => absurd he List.not_mem_nil, fun he => absurd he (hnone e)⟩
  rw [hsame]
  exact .refl 0 _

theorem onDisk_newManifest (o : Options) : OnDisk o Db.newManifest [] [] [] 0 where
  grow := .nil
  inRange _ hg := absurd hg List.not_mem_nil
  tables := tables_empty
  bound_le := le_rfl
  flushed_le _ he := absurd he List.not_mem_nil
  last_lt := by decide
  number_lt _ _ hf := absurd hf List.not_mem_nil
  logNumber_lt := by decide
  sorted := .nil
  reads := .nil

theorem exists_trace_after {es : List Event} (h : Db.after o es = some db) :
    ∃ a : ℕ → Store, a 0 = .new ∧ Transition.Trace Store.Step es a ∧
      ∀ i ≤ es.length, ∃ db', Db.after o (es.take i) = some db' ∧ Refines o db' (a i) := by
  obtain ⟨db₀, hopen, hrun⟩ := Option.bind_eq_some_iff.mp h
  obtain ⟨db₁, hopen', hnew⟩ := (onDisk_newManifest o).openDb
  obtain rfl := Option.some.inj (hopen.symm.trans hopen')
  have hrefines : Refines o db₀ .new := ⟨_, hnew⟩
  obtain ⟨a, hfirst, htrace, hall⟩ := Transition.exists_trace_of_run
    (fun _ _ _ _ hrefines hstep => hrefines.step hstep) hrefines hrun
  refine ⟨a, hfirst, htrace, fun i hi => ?_⟩
  obtain ⟨db', hdb', hI⟩ := hall i hi
  exact ⟨db', Option.bind_eq_some_iff.mpr ⟨db₀, hopen, hdb'⟩, hI⟩

theorem exists_refines_after {es : List Event} (h : Db.after o es = some db) :
    ∃ a : ℕ → Store, a 0 = .new ∧ Transition.Trace Store.Step es a ∧
      Refines o db (a es.length) := by
  obtain ⟨a, hfirst, htrace, hall⟩ := exists_trace_after h
  obtain ⟨db', hdb', hrefines⟩ := hall es.length le_rfl
  rw [List.take_length, h] at hdb'
  exact ⟨a, hfirst, htrace, Option.some.inj hdb' ▸ hrefines⟩

/-- What the steps of the store keep holds after a run of the database. -/
theorem Refines.run_along {C : Event → Prop} {P : Store → Prop}
    (hP : ∀ {e a a'}, Store.Step e a a' → C e → P a → P a') (h : Refines o db a) (ha : P a)
    {es : List Event} (hes : ∀ e ∈ es, C e) (hrun : Transition.run (Db.step o) db es = some db') :
    ∃ a', Refines o db' a' ∧ P a' := by
  refine Transition.run_invariant_along (C := fun _ => C)
    (I := fun db => ∃ a, Refines o db a ∧ P a) ?_ ⟨a, h, ha⟩
    (Transition.along_of_forall_mem hes db) hrun
  rintro s e s' ⟨a, hrefines, ha⟩ he hstep
  obtain ⟨a', hstep', hrefines'⟩ := hrefines.step hstep
  exact ⟨a', hrefines', hP hstep' he ha⟩

/-- Lookups and readers get what the store says, the same writers wait, and the same of them are in
the log. -/
structure Serves (db : Db) (a : Store) : Prop where
  get_eq : ∀ key : Slice, key.length + 8 < 2 ^ 32 → db.get key = .ofOption a.contents[key]?
  readers : List.Forall₂ (fun r read => r.key = read.1 ∧ r.result db.mem = .ofOption read.2)
    db.readers a.reads
  writers : db.writers.length = a.pending.length
  logged : a.logged = db.leader.logged

theorem Refines.serves (h : Refines o db a) : Serves db a := by
  obtain ⟨p, h⟩ := h
  exact ⟨fun key hkey => h.get_eq hkey,
    h.readers.imp fun r read hr => ⟨hr.key_eq, hr.result_eq⟩, h.writers.length_eq, h.logged⟩

def plainOptions : Options where
  crc32c := .castagnoli
  writeBufferSize := 1
  approximateMemoryUsage m := m.table.length
  tableSize := ⟨List.length, List.length⟩

def leadOne : List Event := [.lead, .makeRoom, .addRecord, .insertInto]

def queueOne : List Event := [.write (some [.put [1] [2]]) true]

def queued : Db := (Db.after plainOptions queueOne).get (by decide +kernel)

/-- Two writers in one group, the first of them with sync; a read that begins; and a removal without
sync, for which the table is set aside and becomes a file, which is then moved to the next level. -/
def mixed : List Event :=
  [.write (some [.put [1] [2]]) true, .write (some [.put [3] [4], .put [5] [6]]) false] ++ leadOne ++
    [.finish, .beginRead [1], .write (some [.delete [1]]) false, .lead, .makeRoom, .compactMemTable,
      .makeRoom, .addRecord, .startCompaction 2 0, .insertInto, .finish]

def written : Db := (Db.after plainOptions mixed).get (by decide +kernel)

/-- Whatever happens, the database answers as a store that takes the same events, and it does so all
along. -/
theorem after_serves {es : List Event} (h : Db.after o es = some db) :
    ∃ a : ℕ → Store, a 0 = .new ∧ Transition.Trace Store.Step es a ∧
      ∀ i ≤ es.length, ∃ db', Db.after o (es.take i) = some db' ∧ Serves db' (a i) := by
  obtain ⟨a, hfirst, htrace, hall⟩ := exists_trace_after h
  refine ⟨a, hfirst, htrace, fun i hi => ?_⟩
  obtain ⟨db', hdb', hrefines⟩ := hall i hi
  exact ⟨db', hdb', hrefines.serves⟩

/-- The removal, which was not synced, is lost, and the key is written again. -/
def crashed : List Event :=
  mixed ++ [.crash fun _ => 0, .write (some [.put [1] [7]]) false] ++ leadOne ++ [.finish]

theorem after_serves_crashed :
    ∃ a : ℕ → Store, a 0 = .new ∧ Transition.Trace Store.Step crashed a ∧
      ∀ i ≤ crashed.length, ∃ db', Db.after plainOptions (crashed.take i) = some db' ∧
        Serves db' (a i) :=
  after_serves (Option.some_get (by decide +kernel)).symm

/-- After any events and a crash, which leaves at least what was synced, the database opens, with
all commits that had to be synced, and with whole commits only: those that were made, and the one of
the leader if it is in the log. -/
theorem crash_keeps_synced {es : List Event} (h : Db.after o es = some db) :
    ∃ a : ℕ → Store, a 0 = .new ∧ Transition.Trace Store.Step es a ∧ Serves db (a es.length) ∧
      ∀ extra, ∃ db' commits, db.crash o extra = some db' ∧
        ((a es.length).commits.filter Commit.sync).Sublist commits ∧
        commits.Sublist ((a es.length).commits ++ (a es.length).underWay) ∧
        Serves db' ⟨[], commits, [], 0⟩ := by
  obtain ⟨a, hfirst, htrace, hrefines⟩ := exists_refines_after h
  refine ⟨a, hfirst, htrace, hrefines.serves, fun extra => ?_⟩
  obtain ⟨p, hrefines⟩ := hrefines
  obtain ⟨db', commits, hcrash, hrefines', hsynced, hsub, -⟩ := hrefines.crash extra
  exact ⟨db', commits, hcrash, hsynced, hsub, hrefines'.serves⟩

def logging : List Event :=
  mixed ++ [.write (some [.put [3] [8]]) false, .lead, .makeRoom, .addRecord,
    .write (some [.delete [3]]) true]

def logged : Db := (Db.after plainOptions logging).get (by decide +kernel)

theorem crash_keeps_synced_logged :
    logged.leader.logged = 1 ∧ logged.writers.length = 2 ∧
      ∃ a : ℕ → Store, a 0 = .new ∧ Transition.Trace Store.Step logging a ∧
        Serves logged (a logging.length) ∧
        ∀ extra, ∃ db' commits, logged.crash plainOptions extra = some db' ∧
          ((a logging.length).commits.filter Commit.sync).Sublist commits ∧
          commits.Sublist ((a logging.length).commits ++ (a logging.length).underWay) ∧
          Serves db' ⟨[], commits, [], 0⟩ :=
  ⟨by decide +kernel, by decide +kernel,
    crash_keeps_synced (Option.some_get (by decide +kernel)).symm⟩

/-- When only the process ends, nothing is lost: the database opens with what it had, as long as no
batch is in the log that is not done. -/
theorem crash_leavesAll_get {es : List Event} (h : Db.after o es = some db)
    (hlog : db.leader.inLog = false) (hleaves : db.LeavesAll extra) :
    ∃ db', db.crash o extra = some db' ∧
      ∀ key : Slice, key.length + 8 < 2 ^ 32 → db'.get key = db.get key := by
  obtain ⟨a, -, -, hrefines⟩ := exists_refines_after h
  have hserves := hrefines.serves
  obtain ⟨p, hrefines⟩ := hrefines
  obtain ⟨db', commits, hcrash, hrefines', -, hsub, hall⟩ := hrefines.crash extra
  rw [Store.underWay, hrefines.logged, Leader.logged_eq_zero hlog, if_pos rfl, List.append_nil] at hsub
  obtain rfl := hsub.antisymm (hall hleaves).sublist
  refine ⟨db', hcrash, fun key hkey => ?_⟩
  rw [hrefines'.serves.get_eq key hkey, hserves.get_eq key hkey]
  rfl

theorem crash_leavesAll_get_written :
    ∃ db', written.crash plainOptions (fun _ => 100) = some db' ∧
      ∀ key : Slice, key.length + 8 < 2 ^ 32 → db'.get key = written.get key :=
  crash_leavesAll_get (Option.some_get (by decide +kernel)).symm (by decide +kernel)
    (by decide +kernel)

theorem Store.Step.contents_eq {e : Event} {a' : Store} (h : Store.Step e a a')
    (he : e.isInternal = true) : a'.contents = a.contents := by
  cases h with
  | write | commit | beginRead | endRead | crash => cases he
  | skip | log | internal => rfl

/-- Making room, writing to the log and into the table, flushes and compactions do not change what
a lookup gets, in whatever order they come. -/
theorem run_internal_get {es es' : List Event} (h : Db.after o es = some db)
    (hes' : ∀ e ∈ es', e.isInternal = true) (hrun : Transition.run (Db.step o) db es' = some db')
    (hkey : key.length + 8 < 2 ^ 32) : db'.get key = db.get key := by
  obtain ⟨a, -, -, hrefines⟩ := exists_refines_after h
  obtain ⟨a', ha', hcontents⟩ := hrefines.run_along
    (P := fun a' => a'.contents = (a es.length).contents)
    (fun hstep he hcontents => (hstep.contents_eq he).trans hcontents) rfl hes' hrun
  rw [ha'.serves.get_eq key hkey, hrefines.serves.get_eq key hkey, hcontents]

theorem run_internal_get_queued :
    ((Transition.run (Db.step plainOptions) queued leadOne).get (by decide +kernel)).get [1] =
      queued.get [1] :=
  run_internal_get (Option.some_get (by decide +kernel)).symm (by decide)
    (Option.some_get _).symm (by decide)

/-- The second version is the first one with the files of tables that were flushed meanwhile. -/
inductive Flushes (v : Version) : Version → Prop
  | refl : Flushes v v
  | add {v' : Version} {news : List (ℕ × FileMetaData)} (hflush : Flushes v v')
      (hadd : v'.Addable news) : Flushes v (v'.apply ⟨[], news⟩)

theorem Flushes.sound {v v' : Version} {c : Compaction} (h : Flushes v v') (hv : v.Ordered)
    (hc : c.Sound v) : v'.Ordered ∧ c.Sound v' := by
  induction h with
  | refl => exact ⟨hv, hc⟩
  | add _ hadd ih => exact ⟨ih.1.add hadd, ih.2.add hadd⟩

/-- Versions that read the same get the same, though one may have lost a deletion. -/
theorem ofSaverState_get_eq {v w : Version} {s t : ℕ} (hv : v.Ordered) (hw : w.Ordered)
    (hsame : Versioned.SameReads s v.allEntries w.allEntries) (hst : s ≤ t)
    (ht : t ≤ kMaxSequenceNumber) (key : Slice) :
    GetResult.ofSaverState (w.get key t) = .ofSaverState (v.get key t) := by
  obtain ⟨x, hx, hget⟩ := hv.answers_get key ht
  obtain ⟨y, hy, hget'⟩ := hw.answers_get key ht
  obtain ⟨z, hz, hjoin⟩ := hsame key t x.join hst ⟨x, hx, rfl⟩
  rw [hget, hget', GetResult.ofSaverState_ofAnswer, GetResult.ofSaverState_ofAnswer, hjoin,
    hy.eq (Compaction.functional_allEntries hw) hz]

/-- A compaction can be picked for every file of a version in order. Whatever tables are flushed
while it runs, its outputs leave a version in order, and every lookup at its number or above gets
what it got before. -/
theorem compaction_keeps_reads {v v' : Version} {level s number : ℕ} {f : FileMetaData}
    (hv : v.Ordered) (hf : f ∈ v.files level) (hlevel : level + 1 < kNumLevels)
    (hseq : ∀ e ∈ v.allEntries, e.seq ≤ s) (hs : s < kMaxSequenceNumber) (hflush : Flushes v v')
    (hnumber : ∀ i, ∀ g ∈ v'.files i, g.number < number)
    (tableSize : TableSizes) :
    ∃ c, v.pickCompaction level f s = some c ∧ (v'.apply (c.edit tableSize number)).Ordered ∧
      ∀ key t, s ≤ t → t ≤ kMaxSequenceNumber →
        GetResult.ofSaverState ((v'.apply (c.edit tableSize number)).get key t) =
          .ofSaverState (v'.get key t) := by
  obtain ⟨c, hc, hpicked, rfl, hversion, rfl⟩ := hv.picked_pickCompaction hf s
  have hsound := Compaction.sound_of_picked hv hpicked hversion hlevel hseq hs
  obtain ⟨hv', hsound'⟩ := hflush.sound hv hsound
  obtain ⟨hordered, hcompacts, -⟩ := hsound'.install hv' tableSize hnumber
  have hsame := hcompacts.sameReads (Compaction.functional_allEntries hv')
  exact ⟨c, hc, hordered, fun key t hst ht => ofSaverState_get_eq hv' hordered hsame hst ht key⟩

theorem RefinesAt.flushes (h : RefinesAt o db a p) (hstep : db.compactMemTable o = some db') :
    Flushes db.versions.current db'.versions.current := by
  obtain ⟨m, himm, hstep⟩ := Option.bind_eq_some_iff.mp hstep
  obtain ⟨news, hnews, rfl⟩ := Option.map_eq_some_iff.mp hstep
  have hold := h.inv.imm
  rw [ImmHolds, himm] at hold
  exact .add .refl (h.inv.addable_imm hold.1 hnews).1

def putAside (value : Slice) : List Event :=
  .write (some [.put [1] value]) false :: leadOne ++
    [.finish, .write none false, .lead, .makeRoom, .makeRoom]

def twoFiles : List Event :=
  putAside [2] ++ [.compactMemTable] ++ putAside [3] ++ [.compactMemTable] ++ putAside [4]

def overlapping : Db := (Db.after plainOptions twoFiles).get (by decide +kernel)

def flushed : Db := (overlapping.compactMemTable plainOptions).get (by decide +kernel)

def upper : FileMetaData :=
  (overlapping.versions.current.files 1).get ⟨0, by decide +kernel⟩

theorem compaction_keeps_reads_overlapping :
    ∃ c, overlapping.versions.current.pickCompaction 1 upper overlapping.versions.lastSequence =
        some c ∧
      c.inputs1.length = 1 ∧ (flushed.versions.current.files 0).length = 1 ∧
      (flushed.versions.current.apply
        (c.edit plainOptions.tableSize flushed.manifest.nextFileNumber)).Ordered ∧
      ∀ key t, overlapping.versions.lastSequence ≤ t → t ≤ kMaxSequenceNumber →
        GetResult.ofSaverState ((flushed.versions.current.apply
          (c.edit plainOptions.tableSize flushed.manifest.nextFileNumber)).get key t) =
            .ofSaverState (flushed.versions.current.get key t) := by
  have hafter : Db.after plainOptions twoFiles = some overlapping :=
    (Option.some_get (by decide +kernel)).symm
  have hstep : overlapping.compactMemTable plainOptions = some flushed :=
    (Option.some_get (by decide +kernel)).symm
  obtain ⟨a, -, -, p, hrefines⟩ := exists_refines_after hafter
  obtain ⟨p', hrefines'⟩ := hrefines.compactMemTable hstep
  have hinv := hrefines.inv
  have hupper : upper ∈ overlapping.versions.current.files 1 := List.get_mem _ _
  obtain ⟨c, hc, hordered, hget⟩ := compaction_keeps_reads hinv.tables.ordered hupper (by decide)
    (fun e he => hinv.seq_le e ((Inv.mem_visible_iff p e).mpr (.inl (hinv.tables.subset e he))))
    hinv.last_lt (hrefines.flushes hstep) hrefines'.inv.number_lt plainOptions.tableSize
  have hinputs : (overlapping.versions.current.pickCompaction 1 upper
      overlapping.versions.lastSequence).map (fun c => c.inputs1.length) = some 1 := by
    decide +kernel
  rw [hc] at hinputs
  exact ⟨c, hc, Option.some.inj hinputs, by decide +kernel, hordered, hget⟩

/-- The place of a read after the event, if the event does not end it. -/
def Event.moveRead (i : ℕ) : Event → Option ℕ
  | .endRead j => if j < i then some (i - 1) else if j = i then none else some i
  | .crash _ => none
  | _ => some i

theorem Store.Step.reads_eq {e : Event} {a' : Store} (h : Store.Step e a a') {i j : ℕ}
    (hmove : e.moveRead i = some j) {read : Slice × Option Slice}
    (hread : a.reads[i]? = some read) : a'.reads[j]? = some read := by
  cases h with
  | crash => cases hmove
  | endRead k =>
      rw [Event.moveRead] at hmove
      rw [List.getElem?_eraseIdx]
      split_ifs at hmove with hlt heq <;> obtain rfl := Option.some.inj hmove
      · rw [if_neg (by omega), Nat.sub_add_cancel (by omega)]
        exact hread
      · rw [if_pos (by omega)]
        exact hread
  | beginRead =>
      obtain rfl := Option.some.inj hmove
      rw [List.getElem?_append_left (List.getElem?_eq_some_iff.mp hread).1]
      exact hread
  | write | skip | log | commit => exact Option.some.inj hmove ▸ hread
  | internal hinternal =>
      cases e <;> first | exact Option.some.inj hmove ▸ hread | cases hinternal

theorem exists_getElem?_of_forall₂ {α β : Type*} {R : α → β → Prop} {l : List α} {l' : List β}
    (h : List.Forall₂ R l l') {i : ℕ} {y : β} (hy : l'[i]? = some y) :
    ∃ x, l[i]? = some x ∧ R x y := by
  induction h generalizing i with
  | nil => cases hy
  | cons hR _ ih =>
      cases i with
      | zero => exact ⟨_, rfl, Option.some.inj hy ▸ hR⟩
      | succ i => exact ih hy

/-- The read stays, at the place it has moved to. -/
theorem Refines.run_read (h : Refines o db a) {es : List Event} {i j : ℕ}
    {read : Slice × Option Slice} (hread : a.reads[i]? = some read)
    (hmove : Transition.run (fun i e => e.moveRead i) i es = some j)
    (hrun : Transition.run (Db.step o) db es = some db') :
    ∃ a', Refines o db' a' ∧ a'.reads[j]? = some read := by
  induction es generalizing db a i with
  | nil =>
      obtain rfl := Option.some.inj hrun
      obtain rfl := Option.some.inj hmove
      exact ⟨a, h, hread⟩
  | cons e es ih =>
      obtain ⟨db₁, hstep, hrest⟩ := Transition.run_cons_eq_some_iff.mp hrun
      obtain ⟨k, hk, hmove'⟩ := Transition.run_cons_eq_some_iff.mp hmove
      obtain ⟨a', hstep', h'⟩ := h.step hstep
      exact ih h' (hstep'.reads_eq hk hread) hmove' hrest

/-- A read gets the value its key had when it began, whatever is written, flushed and compacted and
whichever other reads end before it ends. -/
theorem read_stable {es es' : List Event} {db₁ : Db} {j : ℕ} (h : Db.after o es = some db)
    (hbegin : db.beginRead key = some db₁)
    (hmove : Transition.run (fun i e => e.moveRead i) db.readers.length es' = some j)
    (hrun : Transition.run (Db.step o) db₁ es' = some db') :
    ∃ r, db'.readers[j]? = some r ∧ r.key = key ∧ r.result db'.mem = db.get key := by
  obtain ⟨a, -, -, p, hrefines⟩ := exists_refines_after h
  have hkey : key.length + 8 < 2 ^ 32 := by
    rw [Db.beginRead] at hbegin
    split at hbegin
    · assumption
    · cases hbegin
  have hbegun : Refines o db₁ _ := ⟨p, hrefines.beginRead hbegin⟩
  have hlength : db.readers.length = (a es.length).reads.length := hrefines.readers.length_eq
  obtain ⟨a', ha', hread⟩ := hbegun.run_read (by
    rw [hlength, List.getElem?_append_right le_rfl, Nat.sub_self]
    rfl) hmove hrun
  obtain ⟨r, hr, hkeyEq, hresult⟩ := exists_getElem?_of_forall₂ ha'.serves.readers hread
  exact ⟨r, hr, hkeyEq, hresult.trans (hrefines.get_eq hkey).symm⟩

/-- A second read, of a key that is removed before it ends; the read that began earlier ends. -/
def reading : Db := (written.beginRead [3]).get (by decide +kernel)

def removeOne : List Event :=
  .write (some [.delete [3]]) false :: leadOne ++ [.finish, .endRead 0]

def removed : Db := (Transition.run (Db.step plainOptions) reading removeOne).get (by decide +kernel)

theorem read_stable_removed :
    ∃ r, removed.readers[0]? = some r ∧ r.key = [3] ∧ r.result removed.mem = written.get [3] :=
  read_stable (Option.some_get (by decide +kernel)).symm (Option.some_get _).symm
    (by decide +kernel) (Option.some_get _).symm

end Leveldb

end UnifyFramework
