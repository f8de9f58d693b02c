import Mathlib.Algebra.Order.Field.Basic
import Mathlib.Algebra.Order.Ring.Rat
import Mathlib.Tactic.NormNum
import Mathlib.Tactic.Positivity
import UnifyFramework.Leveldb.DbRefinement

/-!
# Scheduling

One thread works in the background, in calls that `MaybeScheduleCompaction` schedules when a table
was set aside, when a level has too much data, or when a file was sought too often. A call writes the
table, or picks files and compacts them; it schedules the next one if there is more to do and wakes
the leader of the writers, which waits when it finds no room. In the middle of a compaction the thread
writes a table that was set aside meanwhile, and wakes the leader too.

Which files are sought too often is left open, and scores are exact, where the source has doubles.
That a write is delayed once when level zero has eight files, the shutdown and errors in the
background are left out.
-/

namespace UnifyFramework

namespace Leveldb

open Transition

def kL0CompactionTrigger : ℕ := 4

def maxBytesForLevel (level : ℕ) : ℚ := 10 * 1048576 * 10 ^ (level - 1)

namespace Version

def score (v : Version) (level : ℕ) : ℚ :=
  if level = 0 then (v.files 0).length / kL0CompactionTrigger
  else totalFileSize (v.files level) / maxBytesForLevel level

/-- `Finalize`: `compaction_level_` and `compaction_score_`. -/
def finalize (v : Version) : Option ℕ × ℚ :=
  (List.range (kNumLevels - 1)).foldl
    (fun best level => if best.2 < v.score level then (some level, v.score level) else best)
    (none, -1)

end Version

/-- The database with what its mutex and `bg_cv_` serve for. The leader may be `waiting`;
`fileToCompact` is that of the current version, and `savedPointer` is in the manifest. -/
structure DbImpl where
  db : Db
  bgCompactionScheduled : Bool
  waiting : Bool
  fileToCompact : Option (ℕ × FileMetaData)
  compactPointer : ℕ → Slice
  savedPointer : ℕ → Slice

namespace DbImpl

def needsCompaction (s : DbImpl) : Bool :=
  1 ≤ s.db.versions.current.finalize.2 ∨ s.fileToCompact.isSome

def maybeScheduleCompaction (s : DbImpl) : DbImpl :=
  if s.bgCompactionScheduled then s
  else if s.db.imm.isNone ∧ s.needsCompaction = false then s
  else { s with bgCompactionScheduled := true }

def signalAll (s : DbImpl) : DbImpl := { s with waiting := false }

/-- The end of `BackgroundCall`. -/
def endCall (s : DbImpl) : DbImpl :=
  { s with bgCompactionScheduled := false }.maybeScheduleCompaction.signalAll

/-- One round of the loop of `MakeRoomForWrite`. -/
def makeRoom (o : Options) (s : DbImpl) : Option DbImpl :=
  match s.waiting, s.db.leader with
  | false, .makingRoom force =>
      if force = false ∧ o.approximateMemoryUsage s.db.mem ≤ o.writeBufferSize then
        s.db.group.map fun db => { s with db := db }
      else if s.db.imm.isSome ∨ kL0StopWritesTrigger ≤ (s.db.versions.current.files 0).length then
        some { s with waiting := true }
      else some { s with db := s.db.switchMemTable }.maybeScheduleCompaction
  | _, _ => none

def updateStats (level i : ℕ) (s : DbImpl) : Option DbImpl :=
  -- A read charges a file only if it goes on to another one, so none of the last level.
  if s.fileToCompact.isSome ∨ kNumLevels ≤ level + 1 then none
  else
    (s.db.versions.current.files level)[i]?.map fun f =>
      { s with fileToCompact := some (level, f) }.maybeScheduleCompaction

/-- The file of the level that comes after `compact_pointer_`, or else the first one. -/
def nextFile (s : DbImpl) (level : ℕ) : Option FileMetaData :=
  let files := s.db.versions.current.files level
  (files.find? fun f => s.compactPointer level = [] ∨
    internalKeyCompare f.largest (s.compactPointer level) = .gt).or files.head?

/-- The level and the file `PickCompaction` begins with. -/
def pickFile (s : DbImpl) : Option (ℕ × FileMetaData) :=
  if 1 ≤ s.db.versions.current.finalize.2 then
    s.db.versions.current.finalize.1.bind fun level => (s.nextFile level).map fun f => (level, f)
  else s.fileToCompact

def movePointer (c : Compaction) (pointer : ℕ → Slice) : ℕ → Slice :=
  Function.update pointer c.level ((getRange c.inputs0).elim [] Prod.snd)

def compactMemTable (o : Options) (s : DbImpl) : Option DbImpl :=
  (s.db.compactMemTable o).map fun db => { s with db := db, fileToCompact := none }

def install (o : Options) (c : Compaction) (s : DbImpl) : DbImpl :=
  { s with
    db := s.db.install o c
    fileToCompact := none
    savedPointer := movePointer c s.savedPointer }

/-- `BackgroundCall`, up to the work of a compaction that is not a trivial move. -/
def backgroundCall (o : Options) (s : DbImpl) : Option DbImpl :=
  if s.bgCompactionScheduled = false ∨ s.db.compaction.isSome then none
  else if s.db.imm.isSome then (s.compactMemTable o).map endCall
  else
    match s.pickFile with
    | none => some s.endCall
    | some (level, f) =>
        (s.db.versions.current.pickCompaction level f s.db.versions.lastSequence).map fun c =>
          let s := { s with compactPointer := movePointer c s.compactPointer }
          if c.isTrivialMove then (s.install o c).endCall
          else { s with db := { s.db with compaction := some c } }

/-- `DoCompactionWork` finds a table that was set aside. -/
def compactMeanwhile (o : Options) (s : DbImpl) : Option DbImpl :=
  if s.db.compaction.isSome then (s.compactMemTable o).map signalAll else none

def finishCompaction (o : Options) (s : DbImpl) : Option DbImpl :=
  s.db.compaction.map fun c => (s.install o c).endCall

/-- The state `DB::Open` leaves. -/
def opened (db : Db) (pointer : ℕ → Slice) : DbImpl :=
  maybeScheduleCompaction ⟨db, false, false, none, pointer, pointer⟩

end DbImpl

/-- The steps of writers and readers that schedule nothing, and the others. -/
inductive Action
  | foreground (e : Event)
  | makeRoom
  | updateStats (level i : ℕ)
  | backgroundCall
  | compactMeanwhile
  | finishCompaction
  | crash (extra : ℕ → ℕ)

/-- The event neither schedules anything nor works in the background. -/
def Event.isForeground : Event → Bool
  | .write _ _ | .lead | .addRecord | .insertInto | .finish | .beginRead _ | .endRead _ => true
  | _ => false

/-- The event is none of the users' and no crash. -/
def Event.isWork : Event → Bool
  | .write _ _ | .beginRead _ | .endRead _ | .crash _ => false
  | _ => true

def Action.isWork : Action → Bool
  | .foreground e => e.isWork
  | .makeRoom | .backgroundCall | .compactMeanwhile | .finishCompaction => true
  | .updateStats _ _ | .crash _ => false

namespace DbImpl

def step (o : Options) (s : DbImpl) : Action → Option DbImpl
  | .foreground e =>
      if e.isForeground then (s.db.step o e).map fun db => { s with db := db } else none
  | .makeRoom => s.makeRoom o
  | .updateStats level i => s.updateStats level i
  | .backgroundCall => s.backgroundCall o
  | .compactMeanwhile => s.compactMeanwhile o
  | .finishCompaction => s.finishCompaction o
  | .crash extra => (s.db.crash o extra).map fun db => opened db s.savedPointer

def after (o : Options) (as : List Action) : Option DbImpl :=
  (Db.openDb o Db.newManifest []).bind fun db => run (step o) (opened db fun _ => []) as

end DbImpl

theorem foldl_best {α β : Type*} [LinearOrder β] (f : α → β) (l : List α) (first : Option α × β) :
    let best := l.foldl (fun best x => if best.2 < f x then (some x, f x) else best) first
    first.2 ≤ best.2 ∧ (∀ x ∈ l, f x ≤ best.2) ∧
      (best = first ∨ ∃ x ∈ l, best = (some x, f x)) := by
  induction l generalizing first with
  | nil => exact ⟨le_rfl, fun x hx => absurd hx List.not_mem_nil, .inl rfl⟩
  | cons x l ih =>
      rw [List.foldl_cons]
      split_ifs with hlt
      · obtain ⟨hfirst, hall, hbest⟩ := ih (some x, f x)
        refine ⟨hlt.le.trans hfirst, List.forall_mem_cons.mpr ⟨hfirst, hall⟩, .inr ?_⟩
        rcases hbest with hbest | ⟨y, hy, hbest⟩
        · exact ⟨x, List.mem_cons_self, hbest⟩
        · exact ⟨y, List.mem_cons_of_mem x hy, hbest⟩
      · obtain ⟨hfirst, hall, hbest⟩ := ih first
        refine ⟨hfirst, List.forall_mem_cons.mpr ⟨(not_lt.mp hlt).trans hfirst, hall⟩, ?_⟩
        exact hbest.imp_right fun ⟨y, hy, hbest⟩ => ⟨y, List.mem_cons_of_mem x hy, hbest⟩

namespace Version

variable {v : Version}

theorem finalize_eq (v : Version) :
    ∃ level, level + 1 < kNumLevels ∧ v.finalize = (some level, v.score level) ∧
      ∀ i, i + 1 < kNumLevels → v.score i ≤ v.finalize.2 := by
  obtain ⟨-, hall, hbest⟩ := foldl_best v.score (List.range (kNumLevels - 1)) (none, -1)
  have hle : ∀ i, i + 1 < kNumLevels → v.score i ≤ v.finalize.2 := fun i hi =>
    hall i (List.mem_range.mpr (Nat.lt_sub_of_add_lt hi))
  rcases hbest with hnone | ⟨level, hlevel, hbest⟩
  · -- the score of level zero is not negative
    have hzero := hle 0 (by decide)
    rw [finalize, hnone, score, if_pos rfl] at hzero
    have hnonneg : (0 : ℚ) ≤ (v.files 0).length / kL0CompactionTrigger := by positivity
    exact absurd (hnonneg.trans hzero) (by norm_num)
  · exact ⟨level, by have := List.mem_range.mp hlevel; omega, hbest, hle⟩

theorem files_ne_nil {level : ℕ} (h : 1 ≤ v.score level) : v.files level ≠ [] := by
  intro hnil
  rw [score] at h
  split_ifs at h with hzero
  · rw [← hzero, hnil] at h
    norm_num at h
  · rw [hnil] at h
    norm_num [totalFileSize] at h

theorem one_le_finalize (h : kL0CompactionTrigger ≤ (v.files 0).length) : 1 ≤ v.finalize.2 := by
  obtain ⟨-, -, -, hle⟩ := v.finalize_eq
  refine le_trans ?_ (hle 0 (by decide))
  have hcast : (4 : ℚ) ≤ (v.files 0).length := by exact_mod_cast h
  rw [score, if_pos rfl, kL0CompactionTrigger]
  rw [one_le_div (by norm_num)]
  exact hcast

end Version

namespace DbImpl

variable {o : Options} {s s' : DbImpl}

theorem needsCompaction_iff :
    s.needsCompaction = true ↔
      1 ≤ s.db.versions.current.finalize.2 ∨ s.fileToCompact.isSome = true :=
  decide_eq_true_iff

theorem maybeScheduleCompaction_eq (s : DbImpl) :
    s.maybeScheduleCompaction = { s with
      bgCompactionScheduled := s.bgCompactionScheduled || s.db.imm.isSome || s.needsCompaction } := by
  obtain ⟨db, scheduled, waiting, file, pointer, saved⟩ := s
  rw [maybeScheduleCompaction]
  cases scheduled <;> cases himm : db.imm <;>
    cases hneeds : needsCompaction ⟨db, _, waiting, file, pointer, saved⟩ <;> simp_all

structure Placed (s : DbImpl) : Prop where
  compaction : s.db.compaction.isSome = true → s.bgCompactionScheduled = true
  inputs : ∀ c ∈ s.db.compaction, c.inputs0 ≠ []
  charged : ∀ q ∈ s.fileToCompact,
    q.1 + 1 < kNumLevels ∧ q.2 ∈ s.db.versions.current.files q.1
  waiting : s.waiting = true → (∃ force, s.db.leader = .makingRoom force) ∧
    (s.db.imm.isSome = true ∨ kL0StopWritesTrigger ≤ (s.db.versions.current.files 0).length)

structure Attended (s : DbImpl) : Prop extends Placed s where
  imm : s.db.imm.isSome = true → s.bgCompactionScheduled = true
  needs : s.needsCompaction = true → s.bgCompactionScheduled = true

theorem Placed.attended (h : s.Placed) : s.maybeScheduleCompaction.Attended := by
  rw [maybeScheduleCompaction_eq]
  refine { h with compaction := fun hc => ?_, imm := fun himm => ?_, needs := fun hneeds => ?_ }
  · simp [h.compaction hc]
  · have himm : s.db.imm.isSome = true := himm
    simp [himm]
  · have hneeds : s.needsCompaction = true := hneeds
    simp [hneeds]

theorem Attended.signalAll (h : s.Attended) : s.signalAll.Attended :=
  { h with waiting := nofun }

/-- When a call ends, there is no compaction under way. -/
theorem attended_endCall (hcompaction : s.db.compaction = none)
    (hcharged : ∀ q ∈ s.fileToCompact,
      q.1 + 1 < kNumLevels ∧ q.2 ∈ s.db.versions.current.files q.1) :
    s.endCall.Attended := by
  have hplaced : Placed { s with bgCompactionScheduled := false, waiting := false } := by
    refine ⟨?_, ?_, hcharged, nofun⟩ <;> rw [hcompaction]
    · exact nofun
    · exact nofun
  have hattended := hplaced.attended.signalAll
  rw [maybeScheduleCompaction_eq] at hattended
  rw [endCall, maybeScheduleCompaction_eq]
  exact hattended

theorem compaction_openDb {manifest : VersionSet} {logs : List LogFile} {db : Db}
    (h : Db.openDb o manifest logs = some db) : db.compaction = none := by
  rw [Db.openDb] at h
  obtain ⟨r, -, rfl⟩ := Option.map_eq_some_iff.mp h
  rfl

theorem attended_opened {db : Db} (hcompaction : db.compaction = none) (pointer : ℕ → Slice) :
    (opened db pointer).Attended := by
  refine Placed.attended ⟨?_, ?_, nofun, nofun⟩ <;> rw [hcompaction]
  · exact nofun
  · exact nofun

/-- What the steps in the foreground leave as it is. -/
theorem step_foreground {db db' : Db} {e : Event} (he : e.isForeground = true)
    (hstep : db.step o e = some db') :
    db'.imm = db.imm ∧ db'.versions.current = db.versions.current ∧
      db'.compaction = db.compaction ∧
      ∀ force, db.leader = .makingRoom force → db'.leader = .makingRoom force := by
  cases e with
  | write ops sync =>
      rw [Db.step, Db.write] at hstep
      split at hstep
      · cases hstep
        exact ⟨rfl, rfl, rfl, fun _ h => h⟩
      · cases hstep
  | lead =>
      rw [Db.step, Db.lead] at hstep
      split at hstep
      · rename_i hleader _
        cases hstep
        exact ⟨rfl, rfl, rfl, fun _ h => by rw [hleader] at h; cases h⟩
      · cases hstep
  | addRecord =>
      rw [Db.step, Db.addRecord] at hstep
      split at hstep
      · rename_i hleader _
        obtain ⟨log, -, rfl⟩ := Option.map_eq_some_iff.mp hstep
        exact ⟨rfl, rfl, rfl, fun _ h => by rw [hleader] at h; cases h⟩
      · cases hstep
  | insertInto =>
      rw [Db.step, Db.insertInto] at hstep
      split at hstep
      · rename_i hleader
        obtain ⟨r, -, rfl⟩ := Option.map_eq_some_iff.mp hstep
        exact ⟨rfl, rfl, rfl, fun _ h => by rw [hleader] at h; cases h⟩
      · cases hstep
  | finish =>
      rw [Db.step, Db.finish] at hstep
      split at hstep
      · rename_i hleader
        cases hstep
        exact ⟨rfl, rfl, rfl, fun _ h => by rw [hleader] at h; cases h⟩
      · cases hstep
  | beginRead key =>
      rw [Db.step, Db.beginRead] at hstep
      split at hstep
      · cases hstep
        exact ⟨rfl, rfl, rfl, fun _ h => h⟩
      · cases hstep
  | endRead i =>
      rw [Db.step, Db.endRead] at hstep
      split at hstep
      · cases hstep
        exact ⟨rfl, rfl, rfl, fun _ h => h⟩
      · cases hstep
  | makeRoom | compactMemTable | startCompaction | finishCompaction | crash => cases he

theorem group_keeps {db db' : Db} (hstep : db.group = some db') :
    db'.imm = db.imm ∧ db'.versions = db.versions ∧ db'.compaction = db.compaction ∧
      db'.mem = db.mem := by
  rw [Db.group] at hstep
  split at hstep
  · cases hstep
  · cases hstep
    exact ⟨rfl, rfl, rfl, rfl⟩
  · dsimp only at hstep
    split at hstep
    · cases hstep
      exact ⟨rfl, rfl, rfl, rfl⟩
    · cases hstep

theorem compactMemTable_keeps {db db' : Db} (hstep : db.compactMemTable o = some db') :
    db'.imm = none ∧ db'.compaction = db.compaction ∧ db'.mem = db.mem ∧ db'.leader = db.leader ∧
      db'.writers = db.writers ∧ db'.versions.lastSequence = db.versions.lastSequence := by
  obtain ⟨m, -, hstep⟩ := Option.bind_eq_some_iff.mp hstep
  obtain ⟨news, -, rfl⟩ := Option.map_eq_some_iff.mp hstep
  exact ⟨rfl, rfl, rfl, rfl, rfl, rfl⟩

theorem Attended.foreground (h : s.Attended) {e : Event} (he : e.isForeground = true) {db : Db}
    (hstep : s.db.step o e = some db) : Attended { s with db := db } := by
  obtain ⟨himm, hcurrent, hcompaction, hleader⟩ := step_foreground he hstep
  have hneeds : needsCompaction { s with db := db } = s.needsCompaction := by
    rw [needsCompaction, hcurrent, needsCompaction]
  refine ⟨⟨?_, ?_, ?_, ?_⟩, ?_, ?_⟩
  · rw [hcompaction]
    exact h.compaction
  · rw [hcompaction]
    exact h.inputs
  · rw [hcurrent]
    exact h.charged
  · intro hwaiting
    obtain ⟨⟨force, hforce⟩, hwhy⟩ := h.waiting hwaiting
    rw [himm, hcurrent]
    exact ⟨⟨force, hleader force hforce⟩, hwhy⟩
  · rw [himm]
    exact h.imm
  · rw [hneeds]
    exact h.needs

def HasRoom (o : Options) (db : Db) (force : Bool) : Prop :=
  force = false ∧ o.approximateMemoryUsage db.mem ≤ o.writeBufferSize

theorem makeRoom_cases (hstep : s.makeRoom o = some s') :
    s.waiting = false ∧ ∃ force, s.db.leader = .makingRoom force ∧
      ((HasRoom o s.db force ∧ ∃ db, s.db.group = some db ∧ s' = { s with db := db }) ∨
        (¬ HasRoom o s.db force ∧ s' = { s with waiting := true } ∧
          (s.db.imm.isSome = true ∨
            kL0StopWritesTrigger ≤ (s.db.versions.current.files 0).length)) ∨
        (¬ HasRoom o s.db force ∧ s.db.imm = none ∧
          (s.db.versions.current.files 0).length < kL0StopWritesTrigger ∧
          s' = { s with db := s.db.switchMemTable }.maybeScheduleCompaction)) := by
  rw [makeRoom] at hstep
  split at hstep
  · rename_i force hwaiting hleader
    refine ⟨hwaiting, force, hleader, ?_⟩
    split_ifs at hstep with hroom hfull
    · obtain ⟨db, hgroup, rfl⟩ := Option.map_eq_some_iff.mp hstep
      exact .inl ⟨hroom, db, hgroup, rfl⟩
    · exact .inr (.inl ⟨hroom, (Option.some.inj hstep).symm, hfull⟩)
    · rw [not_or, Option.not_isSome_iff_eq_none, not_le] at hfull
      exact .inr (.inr ⟨hroom, hfull.1, hfull.2, (Option.some.inj hstep).symm⟩)
  · cases hstep

theorem backgroundCall_cases (hstep : s.backgroundCall o = some s') :
    s.bgCompactionScheduled = true ∧ s.db.compaction = none ∧
      ((∃ t, s.compactMemTable o = some t ∧ s' = t.endCall) ∨
        (s.db.imm = none ∧ s.pickFile = none ∧ s' = s.endCall) ∨
        (s.db.imm = none ∧ ∃ level f c, s.pickFile = some (level, f) ∧
          s.db.versions.current.pickCompaction level f s.db.versions.lastSequence = some c ∧
          ((c.isTrivialMove = true ∧
            s' = ({ s with compactPointer := movePointer c s.compactPointer }.install o c).endCall) ∨
          (c.isTrivialMove = false ∧
            s' = { s with
              compactPointer := movePointer c s.compactPointer
              db := { s.db with compaction := some c } })))) := by
  rw [backgroundCall] at hstep
  split_ifs at hstep with hguard himm
  · rw [not_or, Bool.not_eq_false, Option.not_isSome_iff_eq_none] at hguard
    obtain ⟨t, ht, rfl⟩ := Option.map_eq_some_iff.mp hstep
    exact ⟨hguard.1, hguard.2, .inl ⟨t, ht, rfl⟩⟩
  · rw [not_or, Bool.not_eq_false, Option.not_isSome_iff_eq_none] at hguard
    rw [Option.not_isSome_iff_eq_none] at himm
    refine ⟨hguard.1, hguard.2, .inr ?_⟩
    split at hstep
    · rename_i hpick
      exact .inl ⟨himm, hpick, (Option.some.inj hstep).symm⟩
    · rename_i level f hpick
      obtain ⟨c, hc, rfl⟩ := Option.map_eq_some_iff.mp hstep
      refine .inr ⟨himm, level, f, c, hpick, hc, ?_⟩
      cases c.isTrivialMove with
      | true => exact .inl ⟨rfl, rfl⟩
      | false => exact .inr ⟨rfl, rfl⟩

theorem mem_of_nextFile {level : ℕ} {f : FileMetaData} (h : s.nextFile level = some f) :
    f ∈ s.db.versions.current.files level := by
  rcases Option.or_eq_some_iff.mp h with hfind | ⟨-, hhead⟩
  · exact List.mem_of_find?_eq_some hfind
  · exact List.mem_of_head? hhead

theorem Placed.pickFile_mem (h : s.Placed) {level : ℕ} {f : FileMetaData}
    (hpick : s.pickFile = some (level, f)) :
    level + 1 < kNumLevels ∧ f ∈ s.db.versions.current.files level := by
  rw [pickFile] at hpick
  split_ifs at hpick
  · obtain ⟨best, hbest, hfinalize, -⟩ := s.db.versions.current.finalize_eq
    rw [hfinalize, Option.bind_some] at hpick
    obtain ⟨g, hnext, hpair⟩ := Option.map_eq_some_iff.mp hpick
    cases hpair
    exact ⟨hbest, mem_of_nextFile hnext⟩
  · exact h.charged (level, f) hpick

/-- `PickCompaction` returns nothing only when there is nothing to do. -/
theorem needsCompaction_of_pickFile (hpick : s.pickFile = none) : s.needsCompaction = false := by
  rw [← Bool.not_eq_true, needsCompaction_iff]
  rw [pickFile] at hpick
  split_ifs at hpick with hscore
  · obtain ⟨best, -, hfinalize, -⟩ := s.db.versions.current.finalize_eq
    rw [hfinalize] at hpick hscore
    rw [Option.bind_some, Option.map_eq_none_iff, nextFile, Option.or_eq_none_iff,
      List.head?_eq_none_iff] at hpick
    exact absurd hpick.2 (Version.files_ne_nil hscore)
  · rw [hpick]
    exact fun h => h.elim hscore nofun

theorem Attended.scheduled_of_waiting (h : s.Attended) (hwaiting : s.waiting = true) :
    s.bgCompactionScheduled = true := by
  rcases (h.waiting hwaiting).2 with himm | hfiles
  · exact h.imm himm
  · refine h.needs (needsCompaction_iff.mpr (.inl (Version.one_le_finalize ?_)))
    exact le_trans (by decide) hfiles

theorem Attended.makeRoom (h : s.Attended) (hstep : s.makeRoom o = some s') : s'.Attended := by
  obtain ⟨hwaiting, force, hleader, ⟨-, db, hgroup, rfl⟩ | ⟨-, rfl, hfull⟩ | ⟨-, himm, -, rfl⟩⟩ :=
    makeRoom_cases hstep
  · obtain ⟨himm, hversions, hcompaction, -⟩ := group_keeps hgroup
    have hplaced : Placed { s with db := db } := by
      refine ⟨?_, ?_, ?_, fun hw => ?_⟩
      · rw [hcompaction]
        exact h.compaction
      · rw [hcompaction]
        exact h.inputs
      · rw [hversions]
        exact h.charged
      · exact absurd (hwaiting.symm.trans hw) Bool.false_ne_true
    refine ⟨hplaced, by rw [himm]; exact h.imm, fun hneeds => h.needs ?_⟩
    rw [needsCompaction, hversions] at hneeds
    exact hneeds
  · exact { h with waiting := fun _ => ⟨⟨force, hleader⟩, hfull⟩ }
  · exact Placed.attended { h with
      waiting := fun hw => absurd (hwaiting.symm.trans hw) Bool.false_ne_true }

theorem Attended.backgroundCall (h : s.Attended) (hv : s.db.versions.current.Ordered)
    (hstep : s.backgroundCall o = some s') : s'.Attended := by
  obtain ⟨hscheduled, hcompaction, ⟨t, ht, rfl⟩ | ⟨himm, hpick, rfl⟩ |
    ⟨himm, level, f, c, hpick, hc, ⟨-, rfl⟩ | ⟨-, rfl⟩⟩⟩ := backgroundCall_cases hstep
  · obtain ⟨db, hdb, rfl⟩ := Option.map_eq_some_iff.mp ht
    exact attended_endCall ((compactMemTable_keeps hdb).2.1.trans hcompaction) nofun
  · exact attended_endCall hcompaction h.charged
  · exact attended_endCall rfl nofun
  · refine { h with compaction := fun _ => hscheduled, inputs := ?_ }
    rintro _ ⟨⟩
    obtain ⟨c', hc', hpicked, -⟩ := hv.picked_pickCompaction (h.pickFile_mem hpick).2
      s.db.versions.lastSequence
    obtain rfl : c' = c := Option.some_injective _ (hc'.symm.trans hc)
    exact hpicked.ne_nil

theorem Attended.step (h : s.Attended) (hv : s.db.versions.current.Ordered) {a : Action}
    (hstep : s.step o a = some s') : s'.Attended := by
  cases a with
  | foreground e =>
      rw [DbImpl.step] at hstep
      split_ifs at hstep with he
      obtain ⟨db, hdb, rfl⟩ := Option.map_eq_some_iff.mp hstep
      exact h.foreground he hdb
  | makeRoom => exact h.makeRoom hstep
  | updateStats level i =>
      rw [DbImpl.step, updateStats] at hstep
      split_ifs at hstep with hguard
      rw [not_or, not_le] at hguard
      obtain ⟨f, hf, rfl⟩ := Option.map_eq_some_iff.mp hstep
      refine Placed.attended { h with charged := ?_ }
      rintro _ ⟨⟩
      exact ⟨hguard.2, List.mem_of_getElem? hf⟩
  | backgroundCall => exact h.backgroundCall hv hstep
  | compactMeanwhile =>
      rw [DbImpl.step, compactMeanwhile] at hstep
      split_ifs at hstep with hcompaction
      obtain ⟨t, ht, rfl⟩ := Option.map_eq_some_iff.mp hstep
      obtain ⟨db, hdb, rfl⟩ := Option.map_eq_some_iff.mp ht
      have hscheduled := h.compaction hcompaction
      have hinputs : ∀ c ∈ db.compaction, c.inputs0 ≠ [] := by
        rw [(compactMemTable_keeps hdb).2.1]
        exact h.inputs
      exact ⟨⟨fun _ => hscheduled, hinputs, nofun, nofun⟩, fun _ => hscheduled, fun _ => hscheduled⟩
  | finishCompaction =>
      obtain ⟨c, -, rfl⟩ := Option.map_eq_some_iff.mp hstep
      exact attended_endCall rfl nofun
  | crash extra =>
      obtain ⟨db, hdb, rfl⟩ := Option.map_eq_some_iff.mp hstep
      exact attended_opened (compaction_openDb hdb) s.savedPointer

theorem db_endCall (s : DbImpl) : s.endCall.db = s.db := by
  rw [endCall, maybeScheduleCompaction_eq]
  rfl

theorem makeRoom_db (hstep : s.makeRoom o = some s') :
    s'.db = s.db ∨ s.db.makeRoom o = some s'.db := by
  obtain ⟨-, force, hleader, ⟨hroom, db, hgroup, rfl⟩ | ⟨-, rfl, -⟩ | ⟨hroom, himm, hfiles, rfl⟩⟩ :=
    makeRoom_cases hstep
  · refine .inr ?_
    rw [Db.makeRoom, hleader]
    exact (if_pos hroom).trans hgroup
  · exact .inl rfl
  · refine .inr ?_
    rw [Db.makeRoom, hleader, maybeScheduleCompaction_eq]
    refine (if_neg hroom).trans ?_
    rw [if_neg (by simp [himm]), if_neg (Nat.not_le.mpr hfiles)]

/-- A call writes the table that was set aside, or it begins with the file that is picked. -/
theorem Placed.backgroundCall_db (h : s.Placed) (hstep : s.backgroundCall o = some s') :
    s'.db = s.db ∨ s.db.compactMemTable o = some s'.db ∨
      ∃ level i, s.db.startCompaction o level i = some s'.db := by
  obtain ⟨-, hcompaction, ⟨t, ht, rfl⟩ | ⟨-, -, rfl⟩ | ⟨himm, level, f, c, hpick, hc, hs'⟩⟩ :=
    backgroundCall_cases hstep
  · obtain ⟨db, hdb, rfl⟩ := Option.map_eq_some_iff.mp ht
    rw [db_endCall]
    exact .inr (.inl hdb)
  · exact .inl (db_endCall s)
  · obtain ⟨hlevel, hf⟩ := h.pickFile_mem hpick
    obtain ⟨i, hi⟩ := List.getElem?_of_mem hf
    have hguard : ¬ (s.db.compaction.isSome = true ∨ s.db.imm.isSome = true ∨
        kNumLevels ≤ level + 1) := by simp [hcompaction, himm, hlevel]
    refine .inr (.inr ⟨level, i, ?_⟩)
    rw [Db.startCompaction, if_neg hguard, hi, Option.bind_some, hc, Option.map_some]
    rcases hs' with ⟨hmove, rfl⟩ | ⟨hmove, rfl⟩
    · rw [if_pos hmove, db_endCall]
      rfl
    · rw [if_neg (Bool.not_eq_true _ ▸ hmove)]

/-- Each step is one of the database, or leaves it as it is. -/
theorem Attended.step_db (h : s.Attended) {a : Action} (hstep : s.step o a = some s') :
    s'.db = s.db ∨ ∃ e, s.db.step o e = some s'.db ∧ (a.isWork = true → e.isWork = true) := by
  cases a with
  | foreground e =>
      rw [DbImpl.step] at hstep
      split_ifs at hstep with he
      obtain ⟨db, hdb, rfl⟩ := Option.map_eq_some_iff.mp hstep
      exact .inr ⟨e, hdb, id⟩
  | makeRoom => exact (makeRoom_db hstep).imp_right fun hdb => ⟨.makeRoom, hdb, fun _ => rfl⟩
  | updateStats level i =>
      rw [DbImpl.step, updateStats] at hstep
      split_ifs at hstep
      obtain ⟨f, -, rfl⟩ := Option.map_eq_some_iff.mp hstep
      rw [maybeScheduleCompaction_eq]
      exact .inl rfl
  | backgroundCall =>
      rcases h.backgroundCall_db hstep with hsame | hdb | ⟨level, i, hdb⟩
      · exact .inl hsame
      · exact .inr ⟨.compactMemTable, hdb, fun _ => rfl⟩
      · exact .inr ⟨.startCompaction level i, hdb, fun _ => rfl⟩
  | compactMeanwhile =>
      rw [DbImpl.step, compactMeanwhile] at hstep
      split_ifs at hstep
      obtain ⟨t, ht, rfl⟩ := Option.map_eq_some_iff.mp hstep
      obtain ⟨db, hdb, rfl⟩ := Option.map_eq_some_iff.mp ht
      exact .inr ⟨.compactMemTable, hdb, fun _ => rfl⟩
  | finishCompaction =>
      obtain ⟨c, hc, rfl⟩ := Option.map_eq_some_iff.mp hstep
      rw [db_endCall]
      exact .inr ⟨.finishCompaction, by rw [Db.step, Db.finishCompaction, hc]; rfl, fun _ => rfl⟩
  | crash extra =>
      obtain ⟨db, hdb, rfl⟩ := Option.map_eq_some_iff.mp hstep
      rw [opened, maybeScheduleCompaction_eq]
      exact .inr ⟨.crash extra, hdb, fun hwork => absurd hwork Bool.false_ne_true⟩

/-- The database with its scheduling is one of the database's runs, so what holds after every run of
the database holds here. -/
theorem attended_after {as : List Action} (h : after o as = some s) :
    s.Attended ∧ ∃ es, Db.after o es = some s.db := by
  obtain ⟨db, hopen, hrun⟩ := Option.bind_eq_some_iff.mp h
  have hfirst : (opened db fun _ => []).db = db := by rw [opened, maybeScheduleCompaction_eq]
  refine run_invariant (I := fun s => s.Attended ∧ ∃ es, Db.after o es = some s.db)
    (fun s action s' hs hstep => ?_)
    ⟨attended_opened (compaction_openDb hopen) _, [], by rw [hfirst, Db.after, hopen]; rfl⟩ hrun
  obtain ⟨hattended, es, hes⟩ := hs
  obtain ⟨a, -, -, p, hrefines⟩ := exists_refines_after hes
  refine ⟨hattended.step hrefines.inv.tables.ordered hstep, ?_⟩
  rcases hattended.step_db hstep with hsame | ⟨e, he, -⟩
  · exact ⟨es, hsame ▸ hes⟩
  · obtain ⟨db₀, hopen₀, hrun₀⟩ := Option.bind_eq_some_iff.mp hes
    exact ⟨es ++ [e], Option.bind_eq_some_iff.mpr ⟨db₀, hopen₀, run_concat hrun₀ he⟩⟩

end DbImpl

end Leveldb

end UnifyFramework
