import UnifyFramework.Leveldb.Load
import UnifyFramework.Leveldb.Scheduling

/-!
# Writers do not wait for ever

However the leader of the writers and the thread in the background take turns, they come to rest when
no new requests are made, and then all writers have been served. A leader that waits is woken up: it
waits only as long as a call is scheduled, each call takes something of the load away, and the end of
a call schedules the next one if there is something left.
-/

namespace UnifyFramework

namespace Leveldb

open Search Transition Versioned

variable {o : Options} {db : Db} {a : Store} {p : Places} {v : Version}

namespace Version

theorem exists_getOverlappingInputs (v : Version) (level : ℕ) (f : FileMetaData) :
    ∃ inputs, v.getOverlappingInputs level f.smallestUserKey f.largestUserKey = some inputs := by
  have hspans : Spans FileMetaData.lo FileMetaData.hi {f} (rank f.smallestUserKey)
      (rank f.largestUserKey) := ⟨⟨f, rfl, le_rfl⟩, ⟨f, rfl, le_rfl⟩⟩
  obtain ⟨inputs, a, b, hinputs, -⟩ :=
    getOverlappingInputs_returns v level (connected_singleton _ _ f) hspans
  exact ⟨inputs, hinputs⟩

theorem exists_pickLevelLoop (v : Version) (f : FileMetaData) (n level : ℕ) :
    ∃ picked, v.pickLevelLoop f.smallestUserKey f.largestUserKey n level = some picked := by
  induction n generalizing level with
  | zero => exact ⟨level, rfl⟩
  | succ n ih =>
      obtain ⟨inputs, hinputs⟩ := v.exists_getOverlappingInputs (level + 2) f
      rw [pickLevelLoop, hinputs, Option.bind_some]
      split_ifs
      · exact ⟨level, rfl⟩
      · exact ⟨level, rfl⟩
      · exact ih (level + 1)
      · exact ih (level + 1)

theorem exists_pickLevel (v : Version) (f : FileMetaData) :
    ∃ picked, v.pickLevelForMemTableOutput f.smallestUserKey f.largestUserKey = some picked := by
  rw [pickLevelForMemTableOutput]
  split
  · exact ⟨0, rfl⟩
  · exact v.exists_pickLevelLoop f _ _

end Version

theorem compactMemTable_isSome (h : db.imm.isSome = true) : (db.compactMemTable o).isSome = true := by
  obtain ⟨m, hm⟩ := Option.isSome_iff_exists.mp h
  rw [Db.compactMemTable, hm, Option.bind_some, Option.isSome_map, writeLevel0Table]
  cases buildTable db.versions.nextFileNumber (o.tableSize.finished m.contents) m with
  | none => rfl
  | some f =>
      obtain ⟨picked, hpicked⟩ := db.versions.current.exists_pickLevel f
      dsimp only
      rw [hpicked]
      rfl

theorem LogHolds.addRecord_isSome {log : LogWriter} {synced : ℕ} {gs : List Group}
    (h : LogHolds o log synced gs) (slice : Slice) :
    (log.addRecord o.crc32c slice).isSome = true := by
  obtain ⟨bs, -, hlog, -⟩ := h
  obtain ⟨w, -, hw, -⟩ := delivers_take o.crc32c (bs.map WriteBatch.rep ++ [slice]) 0
  rw [addRecords_append, hlog, Option.bind_some, LogWriter.addRecords] at hw
  obtain ⟨log', hlog', -⟩ := Option.bind_eq_some_iff.mp hw
  rw [hlog']
  rfl

namespace RefinesAt

theorem insertInto_isSome (h : RefinesAt o db a p) {updates : WriteBatch} {n : ℕ}
    (hleader : db.leader = .writing .logged updates n) : db.insertInto.isSome = true := by
  obtain ⟨g, -, hg⟩ := h.exists_group hleader
  rw [Db.insertInto, hleader, Option.isSome_map, WriteBatch.insertInto, hg.batch.holds.iterate]
  rfl

theorem addRecord_isSome (h : RefinesAt o db a p) (hw : db.writers ≠ []) {updates : WriteBatch}
    {n : ℕ} (hleader : db.leader = .writing .grouped updates n) :
    (db.addRecord o).isSome = true := by
  obtain ⟨w, ws, hdb⟩ := List.exists_cons_of_ne_nil hw
  rw [Db.addRecord, hleader, hdb, Option.isSome_map]
  exact h.inv.log.addRecord_isSome updates.rep

/-- The sequence numbers suffice for the group when they do for the queue. -/
theorem group_isSome (h : RefinesAt o db a p) (hw : db.writers ≠ [])
    (hlast : db.numbers < kMaxSequenceNumber) : db.group.isSome = true := by
  obtain ⟨⟨batch, sync⟩, ws, hdb⟩ := List.exists_cons_of_ne_nil hw
  cases batch with
  | none =>
      rw [Db.group, hdb]
      rfl
  | some batch =>
      have hwriters := h.writers
      rw [hdb] at hwriters
      obtain ⟨⟨ops', sync'⟩, rest, ⟨hbatch, hsync⟩, hrest, hpending⟩ :=
        List.forall₂_cons_left_iff.mp hwriters
      obtain rfl : sync = sync' := hsync
      obtain ⟨ops, rfl, hholds⟩ : ∃ ops, ops' = some ops ∧ batch.Holds ops := by
        cases hbatch with
        | some hholds => exact ⟨_, rfl, hholds⟩
      obtain ⟨n, -, -, hgroup, -⟩ := buildBatchGroup_holds hholds hrest sync
      have hcount := hgroup.count_eq
      rw [← hpending, ← countOf_eq (List.forall₂_take (n + 1) h.writers)] at hcount
      have hsplit := countOf_take_add_drop (n + 1) db.writers
      have hlt : db.versions.lastSequence + (buildBatchGroup batch sync ws).result.count <
          kMaxSequenceNumber := by
        rw [Db.numbers] at hlast
        omega
      rw [Db.group, hdb]
      dsimp only
      rw [WriteBatch.count_setSequence, if_pos hlt]
      rfl

end RefinesAt

namespace DbImpl

variable {s s' : DbImpl}

/-- Neither the leader nor the thread in the background can go on. -/
def AtRest (o : Options) (s : DbImpl) : Prop := ∀ a, Action.isWork a = true → s.step o a = none

theorem AtRest.compaction_eq (h : s.AtRest o) : s.db.compaction = none := by
  have hfinish := h .finishCompaction rfl
  exact Option.map_eq_none_iff.mp hfinish

theorem backgroundCall_isSome (h : RefinesAt o s.db a p) (hplaced : s.Placed)
    (hscheduled : s.bgCompactionScheduled = true) (hcompaction : s.db.compaction = none) :
    (s.backgroundCall o).isSome = true := by
  rw [backgroundCall, if_neg (by simp [hscheduled, hcompaction])]
  split
  · rename_i himm
    rw [Option.isSome_map, compactMemTable, Option.isSome_map]
    exact compactMemTable_isSome himm
  · cases hpick : s.pickFile with
    | none => rfl
    | some q =>
        obtain ⟨level, f⟩ := q
        obtain ⟨c, hc, -⟩ := h.inv.tables.ordered.picked_pickCompaction
          (hplaced.pickFile_mem hpick).2 s.db.versions.lastSequence
        dsimp only
        rw [hc]
        rfl

theorem AtRest.scheduled_eq (h : s.AtRest o) (hrefines : RefinesAt o s.db a p)
    (hplaced : s.Placed) : s.bgCompactionScheduled = false := by
  rw [← Bool.not_eq_true]
  intro hscheduled
  have hsome := backgroundCall_isSome hrefines hplaced hscheduled h.compaction_eq
  have hnone : s.backgroundCall o = none := h .backgroundCall rfl
  rw [hnone] at hsome
  cases hsome

/-- A leader that does not wait can go on, as long as there are writers. -/
theorem exists_leader_step (h : RefinesAt o s.db a p) (hw : s.db.writers ≠ [])
    (hlast : s.db.numbers < kMaxSequenceNumber) (hwaiting : s.waiting = false) :
    ∃ b : Action, b.isWork = true ∧ (s.step o b).isSome = true := by
  have hleading : ∀ e : Event, e.isWork = true → e.isForeground = true →
      (s.db.step o e).isSome = true → ∃ b : Action, b.isWork = true ∧ (s.step o b).isSome = true := by
    intro e hwork hforeground hstep
    refine ⟨.foreground e, hwork, ?_⟩
    rw [step, if_pos hforeground, Option.isSome_map]
    exact hstep
  cases hleader : s.db.leader with
  | idle =>
      obtain ⟨w, ws, hdb⟩ := List.exists_cons_of_ne_nil hw
      refine hleading .lead rfl rfl ?_
      rw [Db.step, Db.lead, hleader, hdb]
      rfl
  | makingRoom force =>
      refine ⟨.makeRoom, rfl, ?_⟩
      rw [step, makeRoom, hwaiting, hleader]
      dsimp only
      split_ifs
      · rw [Option.isSome_map]
        exact h.group_isSome hw hlast
      · rfl
      · rfl
  | writing progress updates n =>
      cases progress with
      | grouped => exact hleading .addRecord rfl rfl (h.addRecord_isSome hw hleader)
      | logged => exact hleading .insertInto rfl rfl (h.insertInto_isSome hleader)
      | inserted =>
          refine hleading .finish rfl rfl ?_
          rw [Db.step, Db.finish, hleader]
          rfl

/-- At rest there is nothing left to do. -/
theorem AtRest.served (h : s.AtRest o) (hrefines : RefinesAt o s.db a p) (hattended : s.Attended)
    (hlast : s.db.numbers < kMaxSequenceNumber) :
    s.db.writers = [] ∧ s.db.imm = none ∧ s.needsCompaction = false := by
  have hscheduled := h.scheduled_eq hrefines hattended.toPlaced
  have hidle : ∀ {b : Bool}, (b = true → s.bgCompactionScheduled = true) → b = false := by
    intro b hb
    rw [← Bool.not_eq_true]
    exact fun htrue => absurd (hb htrue) (by rw [hscheduled]; exact Bool.false_ne_true)
  refine ⟨?_, Option.isNone_iff_eq_none.mp ?_, hidle hattended.needs⟩
  · by_contra hw
    obtain ⟨b, hwork, hsome⟩ := exists_leader_step hrefines hw hlast
      (hidle hattended.scheduled_of_waiting)
    rw [h b hwork] at hsome
    cases hsome
  · rw [← Option.not_isSome, hidle hattended.imm]
    rfl

def leaderSteps (o : Options) (db : Db) : ℕ :=
  match db.leader with
  | .idle => 5
  | .makingRoom force =>
      if force = false ∧ o.approximateMemoryUsage db.mem ≤ o.writeBufferSize then 3 else 4
  | .writing .grouped _ _ => 2
  | .writing .logged _ _ => 1
  | .writing .inserted _ _ => 0

def queueSteps (o : Options) (db : Db) : ℕ := 7 * db.writers.length + leaderSteps o db

def callSteps (s : DbImpl) : ℕ :=
  if s.db.compaction.isSome then 1 else if s.bgCompactionScheduled then 2 else 0

/-- What the queue and the load still need. A leader that sets a table aside may cause a call, and the
table has to be written. -/
noncomputable def backlog (o : Options) (db : Db) : ℕ :=
  6 * queueSteps o db + 3 * (db.load + db.imm.isSome.toNat)

/-- The work that is left. A call that takes something of the backlog away may cause another one, and
wakes the leader. -/
noncomputable def work (o : Options) (s : DbImpl) : ℕ :=
  backlog o s.db + callSteps s + (!s.waiting).toNat

theorem callSteps_le (s : DbImpl) : callSteps s ≤ 2 := by
  rw [callSteps]
  split_ifs <;> decide

theorem queueSteps_lt_of_lead {db db' : Db} (hstep : db.lead = some db') :
    queueSteps o db' < queueSteps o db := by
  rw [Db.lead] at hstep
  split at hstep
  · rename_i hleader _
    obtain rfl := Option.some.inj hstep
    refine Nat.add_lt_add_left ?_ _
    rw [leaderSteps, leaderSteps, hleader]
    dsimp only
    split_ifs <;> decide
  · cases hstep

theorem queueSteps_lt_of_addRecord {db db' : Db} (hstep : db.addRecord o = some db') :
    queueSteps o db' < queueSteps o db := by
  rw [Db.addRecord] at hstep
  split at hstep
  · rename_i hleader _
    obtain ⟨log, -, rfl⟩ := Option.map_eq_some_iff.mp hstep
    refine Nat.add_lt_add_left ?_ _
    rw [leaderSteps, leaderSteps, hleader]
    exact Nat.lt_succ_self _
  · cases hstep

theorem queueSteps_lt_of_insertInto {db db' : Db} (hstep : db.insertInto = some db') :
    queueSteps o db' < queueSteps o db := by
  rw [Db.insertInto] at hstep
  split at hstep
  · rename_i hleader
    obtain ⟨r, -, rfl⟩ := Option.map_eq_some_iff.mp hstep
    refine Nat.add_lt_add_left ?_ _
    rw [leaderSteps, leaderSteps, hleader]
    exact Nat.lt_succ_self _
  · cases hstep

theorem queueSteps_lt_of_finish {db db' : Db} (h : RefinesAt o db a p)
    (hstep : db.finish = some db') : queueSteps o db' < queueSteps o db := by
  rw [Db.finish] at hstep
  split at hstep
  · rename_i updates n hleader
    obtain rfl := Option.some.inj hstep
    obtain ⟨g, -, hg⟩ := h.exists_group hleader
    have hpos := hg.pos
    have hle := hg.le_length
    rw [← h.writers.length_eq] at hle
    rw [queueSteps, queueSteps, leaderSteps, leaderSteps, hleader, List.length_drop]
    dsimp only
    omega
  · cases hstep

theorem queueSteps_lt_of_group {db db' : Db} {force : Bool} (hleader : db.leader = .makingRoom force)
    (hroom : HasRoom o db force) (hstep : db.group = some db') :
    queueSteps o db' < queueSteps o db := by
  have hsteps : leaderSteps o db = 3 := by
    rw [leaderSteps, hleader]
    exact if_pos hroom
  rw [queueSteps, queueSteps, hsteps]
  rw [Db.group] at hstep
  split at hstep
  · cases hstep
  · rename_i sync ws hdb
    obtain rfl := Option.some.inj hstep
    rw [hdb, List.length_cons, leaderSteps]
    dsimp only
    omega
  · dsimp only at hstep
    split at hstep
    · obtain rfl := Option.some.inj hstep
      rw [leaderSteps]
      dsimp only
      omega
    · cases hstep

theorem queueSteps_lt_of_switchMemTable {db : Db} {force : Bool}
    (hnew : o.approximateMemoryUsage .new ≤ o.writeBufferSize)
    (hleader : db.leader = .makingRoom force) (hroom : ¬ HasRoom o db force) :
    queueSteps o db.switchMemTable < queueSteps o db := by
  have hsteps : leaderSteps o db = 4 := by
    rw [leaderSteps, hleader]
    exact if_neg hroom
  have hsteps' : leaderSteps o db.switchMemTable = 3 := if_pos ⟨rfl, hnew⟩
  rw [queueSteps, queueSteps, hsteps, hsteps']
  exact Nat.lt_succ_self _

theorem work_lt_of_queueSteps {db : Db} (hmoves : s.db.Moves db)
    (hsteps : queueSteps o db < queueSteps o s.db) (himm : db.imm = s.db.imm)
    (hcompaction : db.compaction = s.db.compaction) : work o { s with db := db } < work o s := by
  have hload := hmoves.load_le
  have hcall : callSteps { s with db := db } = callSteps s := by
    rw [callSteps, callSteps, hcompaction]
  rw [work, work, hcall, backlog, backlog, himm]
  dsimp only
  omega

theorem leading_step {e : Event} {db : Db} (h : RefinesAt o s.db a p) (he : e.isWork = true)
    (hforeground : e.isForeground = true) (hstep : s.db.step o e = some db) :
    s.db.Moves db ∧ queueSteps o db < queueSteps o s.db := by
  cases e with
  | lead => exact ⟨Db.moves_lead hstep, queueSteps_lt_of_lead hstep⟩
  | addRecord => exact ⟨Db.moves_addRecord hstep, queueSteps_lt_of_addRecord hstep⟩
  | insertInto => exact ⟨h.moves_insertInto hstep, queueSteps_lt_of_insertInto hstep⟩
  | finish => exact ⟨h.moves_finish hstep, queueSteps_lt_of_finish h hstep⟩
  | write | beginRead | endRead | crash => cases he
  | makeRoom | compactMemTable | startCompaction | finishCompaction => cases hforeground

/-- The end of a call may schedule another one, and wakes the leader. -/
theorem work_endCall_le (s : DbImpl) :
    work o s.endCall ≤ backlog o s.db + 3 := by
  have hcall := callSteps_le s.endCall
  have hwake := Bool.toNat_le (!s.endCall.waiting)
  rw [work, db_endCall]
  omega

theorem work_lt_of_makeRoom (hnew : o.approximateMemoryUsage .new ≤ o.writeBufferSize)
    (hstep : s.makeRoom o = some s') : s.db.Moves s'.db ∧ work o s' < work o s := by
  obtain ⟨hwaiting, force, hleader, ⟨hroom, db, hgroup, rfl⟩ | ⟨-, rfl, -⟩ |
    ⟨hroom, himm, -, rfl⟩⟩ := makeRoom_cases hstep
  · obtain ⟨himm, -, hcompaction, -⟩ := group_keeps hgroup
    have hmoves := Db.moves_group hleader hgroup
    exact ⟨hmoves, work_lt_of_queueSteps hmoves (queueSteps_lt_of_group hleader hroom hgroup) himm
      hcompaction⟩
  · refine ⟨⟨le_rfl, rfl⟩, ?_⟩
    rw [work, work, hwaiting]
    exact Nat.lt_succ_self _
  · have hmoves := Db.moves_switchMemTable hleader himm
    have hload := hmoves.load_le
    have hsteps := queueSteps_lt_of_switchMemTable hnew hleader hroom
    have hcall := callSteps_le { s with db := s.db.switchMemTable }.maybeScheduleCompaction
    rw [maybeScheduleCompaction_eq] at hcall ⊢
    refine ⟨hmoves, ?_⟩
    have himm' : s.db.switchMemTable.imm.isSome.toNat = 1 := rfl
    rw [work, work, backlog, backlog, himm, Option.isSome_none, Bool.toNat_false]
    dsimp only at hcall ⊢
    omega

/-- The table that is written is not set aside any more. -/
theorem backlog_compactMemTable {t : DbImpl} (h : RefinesAt o s.db a p)
    (hstep : s.compactMemTable o = some t) :
    s.db.Moves t.db ∧ backlog o t.db + 3 ≤ backlog o s.db := by
  obtain ⟨db, hdb, rfl⟩ := Option.map_eq_some_iff.mp hstep
  have hmoves := h.moves_compactMemTable hdb
  refine ⟨hmoves, ?_⟩
  obtain ⟨himm', -, hmem, hleader, hwriters, -⟩ := compactMemTable_keeps hdb
  obtain ⟨m, himm, -⟩ := Option.bind_eq_some_iff.mp hdb
  have hsteps : queueSteps o db = queueSteps o s.db := by
    rw [queueSteps, queueSteps, leaderSteps, leaderSteps, hwriters, hleader, hmem]
  have hload := hmoves.load_le
  dsimp only
  rw [backlog, backlog, himm, himm', hsteps, Option.isSome_some, Option.isSome_none, Bool.toNat_true,
    Bool.toNat_false]
  omega

theorem backlog_install (h : RefinesAt o s.db a p) {c : Compaction}
    (hc : c.Sound s.db.versions.current) (hne : c.inputs0 ≠ []) :
    s.db.Moves (s.install o c).db ∧ backlog o (s.install o c).db + 3 ≤ backlog o s.db := by
  have hload : (s.db.install o c).load < s.db.load := h.load_install hc hne
  refine ⟨⟨hload.le, rfl⟩, ?_⟩
  change 6 * queueSteps o s.db + 3 * ((s.db.install o c).load + s.db.imm.isSome.toNat) + 3 ≤
    6 * queueSteps o s.db + 3 * (s.db.load + s.db.imm.isSome.toNat)
  omega

theorem work_lt_of_backgroundCall (h : RefinesAt o s.db a p) (hplaced : s.Placed)
    (hstep : s.backgroundCall o = some s') : s.db.Moves s'.db ∧ work o s' < work o s := by
  obtain ⟨hscheduled, hcompaction, hcases⟩ := backgroundCall_cases hstep
  have hcall : callSteps s = 2 := by
    rw [callSteps, hcompaction, hscheduled]
    rfl
  have hwork : backlog o s.db + 2 ≤ work o s := by
    rw [work, hcall]
    exact Nat.le_add_right _ _
  rcases hcases with ⟨t, ht, rfl⟩ | ⟨himm, hpick, rfl⟩ | ⟨himm, level, f, c, hpick, hc, hs'⟩
  · obtain ⟨hmoves, hbacklog⟩ := backlog_compactMemTable h ht
    have hend := work_endCall_le (o := o) t
    rw [db_endCall]
    exact ⟨hmoves, by omega⟩
  · -- there is nothing to do, so no other call is scheduled
    have hidle : callSteps s.endCall = 0 := by
      rw [endCall, maybeScheduleCompaction_eq, callSteps]
      have hneeds := needsCompaction_of_pickFile hpick
      have hneeds' : needsCompaction { s with bgCompactionScheduled := false } = false := hneeds
      simp [signalAll, hcompaction, himm, hneeds']
    have hwake := Bool.toNat_le (!s.endCall.waiting)
    rw [db_endCall]
    refine ⟨⟨le_rfl, rfl⟩, ?_⟩
    rw [work, hidle, db_endCall]
    omega
  · obtain ⟨hlevel, hf⟩ := hplaced.pickFile_mem hpick
    obtain ⟨hsound, hne, -⟩ := h.sound_of_pickCompaction hlevel hf hc
    rcases hs' with ⟨-, rfl⟩ | ⟨-, rfl⟩
    · have hpointer : RefinesAt o { s with compactPointer := movePointer c s.compactPointer }.db a p := h
      obtain ⟨hmoves, hbacklog⟩ := backlog_install hpointer hsound hne
      have hend := work_endCall_le (o := o)
        ({ s with compactPointer := movePointer c s.compactPointer }.install o c)
      rw [db_endCall]
      refine ⟨hmoves, ?_⟩
      dsimp only at hbacklog
      omega
    · refine ⟨⟨le_rfl, rfl⟩, ?_⟩
      rw [work, work, hcall]
      change backlog o s.db + 1 + (!s.waiting).toNat < _
      omega

/-- Each step of the leader and of the thread in the background lessens the work. -/
theorem step_work (h : RefinesAt o s.db a p) (hattended : s.Attended)
    (hnew : o.approximateMemoryUsage .new ≤ o.writeBufferSize) {b : Action} (hwork : b.isWork = true)
    (hstep : s.step o b = some s') : s.db.Moves s'.db ∧ work o s' < work o s := by
  cases b with
  | foreground e =>
      rw [step] at hstep
      split_ifs at hstep with he
      obtain ⟨db, hdb, rfl⟩ := Option.map_eq_some_iff.mp hstep
      obtain ⟨hmoves, hsteps⟩ := leading_step h hwork he hdb
      obtain ⟨himm, -, hcompaction, -⟩ := step_foreground he hdb
      exact ⟨hmoves, work_lt_of_queueSteps hmoves hsteps himm hcompaction⟩
  | makeRoom => exact work_lt_of_makeRoom hnew hstep
  | backgroundCall => exact work_lt_of_backgroundCall h hattended.toPlaced hstep
  | compactMeanwhile =>
      rw [step, compactMeanwhile] at hstep
      split_ifs at hstep with hcompaction
      obtain ⟨t, ht, rfl⟩ := Option.map_eq_some_iff.mp hstep
      obtain ⟨hmoves, hbacklog⟩ := backlog_compactMemTable h ht
      refine ⟨hmoves, ?_⟩
      have hcall : callSteps s = 1 := if_pos hcompaction
      have hcall' : callSteps t.signalAll ≤ 2 := callSteps_le _
      rw [work, work, hcall]
      change backlog o t.db + _ + 1 < _
      omega
  | finishCompaction =>
      obtain ⟨c, hc, rfl⟩ := Option.map_eq_some_iff.mp hstep
      obtain ⟨hmoves, hbacklog⟩ := backlog_install h (h.compaction c hc).1 (hattended.inputs c hc)
      have hcall : callSteps s = 1 := if_pos (by rw [hc]; rfl)
      have hend := work_endCall_le (o := o) (s.install o c)
      rw [db_endCall]
      refine ⟨hmoves, ?_⟩
      rw [work.eq_def o s, hcall]
      omega
  | updateStats level i => cases hwork
  | crash extra => cases hwork

end DbImpl

def Store.allOps (a : Store) : List Op := a.commits.flatMap Commit.ops ++ opsOf a.pending

/-- Operations that wait become those of a commit, in their order. -/
theorem Store.Step.allOps_eq {e : Event} {a' : Store} (h : Store.Step e a a')
    (he : e.isWork = true) : a'.allOps = a.allOps := by
  cases h with
  | skip hpending =>
      rw [allOps, allOps, hpending]
      rfl
  | commit hpos hle =>
      rw [allOps, allOps, List.flatMap_append, List.flatMap_singleton, List.append_assoc]
      refine congrArg _ ?_
      rw [commitOf, opsOf, opsOf, opsOf, ← List.flatMap_append, List.take_append_drop]
  | log | internal => rfl
  | write | beginRead | endRead | crash => cases he

/-- When the queue is empty, a lookup gets what was waiting there. -/
theorem Refines.get_of_allOps {key : Slice} {a' : Store} (h : Refines o db a)
    (h' : Refines o db' a') (hops : a'.allOps = a.allOps) (hpending : a'.pending = [])
    (hkey : key.length + 8 < 2 ^ 32) :
    db'.get key =
      ((lastFor (opEntries 0 (Store.opsOf a.pending)) key).map .ofOption).getD (db.get key) := by
  obtain ⟨p, h⟩ := h
  obtain ⟨p', h'⟩ := h'
  have hcontents : a'.contents = (Store.opsOf a.pending).foldl Op.applyTo a.contents := by
    rw [Store.allOps, Store.allOps, hpending] at hops
    have hops : a'.commits.flatMap Commit.ops ++ [] = _ := hops
    rw [List.append_nil] at hops
    rw [Store.contents, Store.contents, Store.replay, Store.replay, hops, List.foldl_append]
  rw [h'.get_eq hkey, h.get_eq hkey, hcontents, Store.writes_opEntries 0]
  cases lastFor (opEntries 0 (Store.opsOf a.pending)) key <;> rfl

open DbImpl

/-- Once no new requests are made, the leader of the writers and the thread in the background take
only so many steps, in whatever order they take them. When neither of them can go on, the queue is
empty, no table is set aside, no level has too much data, and each key has the value of the last write
that was waiting for it. -/
theorem comes_to_rest {as : List Action} {s : DbImpl} (h : DbImpl.after o as = some s)
    (hnew : o.approximateMemoryUsage .new ≤ o.writeBufferSize)
    (hlast : s.db.versions.lastSequence + countOf s.db.writers < kMaxSequenceNumber) :
    ∃ n pending, List.Forall₂ WriterHolds s.db.writers pending ∧
      ∀ bs s', (∀ b ∈ bs, Action.isWork b = true) → run (DbImpl.step o) s bs = some s' →
        bs.length ≤ n ∧ (s'.AtRest o →
          s'.db.writers = [] ∧ s'.db.imm = none ∧ s'.needsCompaction = false ∧
          ∀ key : Slice, key.length + 8 < 2 ^ 32 → s'.db.get key =
            ((lastFor (opEntries 0 (Store.opsOf pending)) key).map .ofOption).getD (s.db.get key)) := by
  obtain ⟨hattended, es, hes⟩ := attended_after h
  obtain ⟨a, -, -, p, hrefines⟩ := exists_refines_after hes
  let I : DbImpl → Prop := fun t =>
    t.Attended ∧ (∃ b, Refines o t.db b ∧ b.allOps = (a es.length).allOps) ∧
      t.db.numbers < kMaxSequenceNumber
  have hstep : ∀ t b t', I t → Action.isWork b = true → t.step o b = some t' →
      I t' ∧ work o t' < work o t := by
    rintro t b t' ⟨hattended, ⟨c, ⟨p, hc⟩, hops⟩, hlt⟩ hwork hstep
    obtain ⟨hmoves, hless⟩ := step_work hc hattended hnew hwork hstep
    refine ⟨⟨hattended.step hc.inv.tables.ordered hstep, ?_, hmoves.numbers_eq ▸ hlt⟩, hless⟩
    rcases hattended.step_db hstep with hsame | ⟨e, he, hwork'⟩
    · exact ⟨c, hsame ▸ ⟨p, hc⟩, hops⟩
    · obtain ⟨c', hcommits, hc'⟩ := Refines.step ⟨p, hc⟩ he
      exact ⟨c', hc', (hcommits.allOps_eq (hwork' hwork)).trans hops⟩
  refine ⟨work o s, (a es.length).pending, hrefines.writers, fun bs s' hbs hrun => ?_⟩
  have halong : Along (DbImpl.step o) (fun _ b => Action.isWork b = true) s bs :=
    along_of_forall_mem hbs s
  have hI : I s := ⟨hattended, ⟨_, ⟨p, hrefines⟩, rfl⟩, hlast⟩
  refine ⟨Nat.le_of_add_right_le (run_length_le hstep hI halong hrun), fun hrest => ?_⟩
  obtain ⟨hattended', ⟨a', ⟨p', hrefines'⟩, hops⟩, hlast'⟩ := run_invariant_along (I := I)
    (fun t b t' ht hb hstep' => (hstep t b t' ht hb hstep').1) hI halong hrun
  obtain ⟨hwriters, himm, hneeds⟩ := hrest.served hrefines' hattended' hlast'
  refine ⟨hwriters, himm, hneeds, fun key hkey => ?_⟩
  have hpending : a'.pending = [] := by
    have hholds := hrefines'.writers
    rw [hwriters] at hholds
    exact List.forall₂_nil_left_iff.mp hholds
  exact Refines.get_of_allOps ⟨p, hrefines⟩ ⟨p', hrefines'⟩ hops hpending hkey

/-- Two tables are full, one of them set aside, and the leader waits. Another writer is behind it. -/
def twoTables : List Action :=
  let put (key : Slice) : List Op := [.put key [1], .delete key]
  let group : List Action := [.makeRoom, .foreground .addRecord, .foreground .insertInto,
    .foreground .finish]
  [.foreground (.write (some (put [1])) true), .foreground .lead] ++ group ++
    [.foreground (.write (some (put [2])) false), .foreground .lead, .makeRoom] ++ group ++
    [.foreground (.write (some [.put [1] [3]]) true), .foreground (.write none false),
      .foreground .lead, .makeRoom]

def stalled : DbImpl := (DbImpl.after plainOptions twoTables).get (by decide +kernel)

theorem comes_to_rest_stalled :
    stalled.waiting = true ∧ stalled.db.writers.length = 2 ∧
      ∃ n pending, List.Forall₂ WriterHolds stalled.db.writers pending ∧
        ∀ bs s', (∀ b ∈ bs, Action.isWork b = true) →
          run (DbImpl.step plainOptions) stalled bs = some s' →
          bs.length ≤ n ∧ (s'.AtRest plainOptions →
            s'.db.writers = [] ∧ s'.db.imm = none ∧ s'.needsCompaction = false ∧
            ∀ key : Slice, key.length + 8 < 2 ^ 32 → s'.db.get key =
              ((lastFor (opEntries 0 (Store.opsOf pending)) key).map .ofOption).getD
                (stalled.db.get key)) :=
  ⟨by decide +kernel, by decide +kernel,
    comes_to_rest (Option.some_get (by decide +kernel)).symm (by decide) (by decide +kernel)⟩

end Leveldb

end UnifyFramework
