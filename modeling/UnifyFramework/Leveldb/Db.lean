import Mathlib.Data.List.Sort
import UnifyFramework.Leveldb.Compaction
import UnifyFramework.Leveldb.Flush
import UnifyFramework.Leveldb.LogReading

/-!
# The database

Writers stand in a queue. The one in front is the leader: it makes room in the table in memory,
takes the batches of those behind it into its own, adds the batch to the log, inserts it into the
table and lets the writers go. A full table is set aside and becomes a file of the current version,
files are compacted, and readers look into the tables and the version they found when they began.
All of this goes on at the same time: each part that the mutex, or the place at the front of the
queue, makes one is a step.

On the disk are the logs, the files and the manifest. Of a log, only the bytes that were synced are
sure to be left after a crash. What is left of the logs is read into tables, which become files
before the database is open again.

Input and output do not fail. Manual compactions, snapshots that users take, and `reuse_logs` are
left out.
-/

namespace UnifyFramework

namespace Leveldb

/-- What a database is opened with, and the sizes that depend on memory and on the table format. -/
structure Options where
  crc32c : Crc32c
  writeBufferSize : ℕ
  approximateMemoryUsage : MemTable → ℕ
  tableSize : TableSizes

def kL0StopWritesTrigger : ℕ := 12

/-- A writer in the queue. One without a batch waits for the table in memory to be set aside. -/
structure Writer where
  batch : Option WriteBatch
  sync : Bool

inductive Progress
  | grouped
  | logged
  | inserted
deriving DecidableEq, Repr

inductive Leader
  | idle
  | makingRoom (force : Bool)
  | writing (progress : Progress) (updates : WriteBatch) (writers : ℕ)

/-- The set of files and its counters. The manifest keeps the same. -/
structure VersionSet where
  current : Version
  logNumber : ℕ
  nextFileNumber : ℕ
  lastSequence : ℕ

/-- `LogAndApply`: an edit without a log number leaves it as it is. -/
def VersionSet.logAndApply (versions : VersionSet) (edit : VersionEdit) (logNumber : Option ℕ) :
    VersionSet :=
  { versions with
    current := versions.current.apply edit
    logNumber := logNumber.getD versions.logNumber }

/-- A lookup that is under way. `mem` is the table in memory it holds, if that is not the one new
updates go to. -/
structure Reader where
  key : Slice
  snapshot : ℕ
  mem : Option MemTable
  imm : Option MemTable
  current : Version

structure LogFile where
  number : ℕ
  contents : Slice
  synced : ℕ

def LogFile.crash (extra : ℕ → ℕ) (log : LogFile) : LogFile :=
  let contents := log.contents.take (log.synced + extra log.number)
  ⟨log.number, contents, contents.length⟩

structure Db where
  writers : List Writer
  leader : Leader
  mem : MemTable
  imm : Option MemTable
  logfileNumber : ℕ
  log : LogWriter
  synced : ℕ
  oldLogs : List LogFile
  versions : VersionSet
  manifest : VersionSet
  compaction : Option Compaction
  readers : List Reader

def batchOf (ops : List Op) : WriteBatch := ops.foldl Op.addTo .new

/-- The batches that were taken together: what they give, whether this is still the batch of the
first writer itself, their size, and how many writers they are. -/
structure BatchGroup where
  result : WriteBatch
  isFirst : Bool
  size : ℕ
  writers : ℕ

/-- The loop of `BuildBatchGroup` over the writers behind the first one. -/
def groupLoop (sync : Bool) (maxSize : ℕ) : List Writer → BatchGroup → BatchGroup
  | [], group => group
  | w :: writers, group =>
      if w.sync && !sync then group
      else
        match w.batch with
        | none => groupLoop sync maxSize writers { group with writers := group.writers + 1 }
        | some batch =>
            if maxSize < group.size + batch.byteSize then group
            else
              let result := if group.isFirst then WriteBatch.new.append group.result else group.result
              groupLoop sync maxSize writers
                ⟨result.append batch, false, group.size + batch.byteSize, group.writers + 1⟩

def maxGroupSize (size : ℕ) : ℕ := if size ≤ 128 <<< 10 then size + 128 <<< 10 else 1 <<< 20

def buildBatchGroup (first : WriteBatch) (sync : Bool) (writers : List Writer) : BatchGroup :=
  groupLoop sync (maxGroupSize first.byteSize) writers ⟨first, true, first.byteSize, 1⟩

/-- What `Get` returns. -/
inductive GetResult
  | ok (value : Slice)
  | notFound
  | corruption
deriving DecidableEq, Repr

namespace GetResult

def ofOption : Option Slice → GetResult
  | some value => ok value
  | none => notFound

def ofSaverState : SaverState → GetResult
  | .found value => ok value
  | .corrupt => corruption
  | _ => notFound

end GetResult

/-- The part of `Get` that runs without the mutex: the tables in memory, then the files. -/
def lookUp (mem : MemTable) (imm : Option MemTable) (current : Version) (key : Slice)
    (snapshot : ℕ) : GetResult :=
  match mem.get key snapshot with
  | some value => .ofOption value
  | none =>
      match imm.bind fun imm => imm.get key snapshot with
      | some value => .ofOption value
      | none => .ofSaverState (current.get key snapshot)

def Reader.result (mem : MemTable) (r : Reader) : GetResult :=
  lookUp (r.mem.getD mem) r.imm r.current r.key r.snapshot

namespace Db

/-- What a `Get` from begin to end gets. -/
def get (db : Db) (key : Slice) : GetResult :=
  lookUp db.mem db.imm db.versions.current key db.versions.lastSequence

def beginRead (key : Slice) (db : Db) : Option Db :=
  if key.length + 8 < 2 ^ 32 then
    some { db with
      readers := db.readers ++ [⟨key, db.versions.lastSequence, none, db.imm, db.versions.current⟩] }
  else none

def endRead (i : ℕ) (db : Db) : Option Db :=
  if i < db.readers.length then some { db with readers := db.readers.eraseIdx i } else none

/-- A writer joins the queue. Its batch counts with an `int`, and lengths are below `2 ^ 32`. -/
def write (ops : Option (List Op)) (sync : Bool) (db : Db) : Option Db :=
  if (ops.getD []).length < 2 ^ 31 ∧ ∀ op ∈ ops.getD [], op.Fits then
    some { db with writers := db.writers ++ [⟨ops.map batchOf, sync⟩] }
  else none

def lead (db : Db) : Option Db :=
  match db.leader, db.writers with
  | .idle, w :: _ => some { db with leader := .makingRoom w.batch.isNone }
  | _, _ => none

/-- The log that is being written, as it is on the disk. -/
def logFile (db : Db) : LogFile := ⟨db.logfileNumber, db.log.dest, db.synced⟩

/-- The table in memory is set aside. Readers that hold it keep it. The log is closed as it is. -/
def switchMemTable (db : Db) : Db :=
  { db with
    leader := .makingRoom false
    mem := .new
    imm := some db.mem
    logfileNumber := db.versions.nextFileNumber
    log := .new
    synced := 0
    oldLogs := db.oldLogs ++ [db.logFile]
    versions := { db.versions with nextFileNumber := db.versions.nextFileNumber + 1 }
    readers := db.readers.map fun r => { r with mem := some (r.mem.getD db.mem) } }

/-- The leader takes the batches together. A writer without a batch has nothing more to do. The
sequence numbers must not run out. -/
def group (db : Db) : Option Db :=
  match db.writers with
  | [] => none
  | ⟨none, _⟩ :: writers => some { db with writers := writers, leader := .idle }
  | ⟨some batch, sync⟩ :: writers =>
      let group := buildBatchGroup batch sync writers
      let updates := group.result.setSequence (db.versions.lastSequence + 1)
      if db.versions.lastSequence + updates.count < kMaxSequenceNumber then
        some { db with leader := .writing .grouped updates group.writers }
      else none

/-- One round of the loop of `MakeRoomForWrite`; where it waits, the leader cannot go on. -/
def makeRoom (o : Options) (db : Db) : Option Db :=
  match db.leader with
  | .makingRoom force =>
      if force = false ∧ o.approximateMemoryUsage db.mem ≤ o.writeBufferSize then db.group
      else if db.imm.isSome then none
      else if kL0StopWritesTrigger ≤ (db.versions.current.files 0).length then none
      else some db.switchMemTable
  | _ => none

def addRecord (o : Options) (db : Db) : Option Db :=
  match db.leader, db.writers with
  | .writing .grouped updates writers, w :: _ =>
      (db.log.addRecord o.crc32c updates.rep).map fun log =>
        { db with
          log := log
          synced := if w.sync then log.dest.length else db.synced
          leader := .writing .logged updates writers }
  | _, _ => none

def insertInto (db : Db) : Option Db :=
  match db.leader with
  | .writing .logged updates writers =>
      (updates.insertInto db.mem).map fun r =>
        { db with mem := r.2, leader := .writing .inserted updates writers }
  | _ => none

def finish (db : Db) : Option Db :=
  match db.leader with
  | .writing .inserted updates writers =>
      some { db with
        versions := { db.versions with lastSequence := db.versions.lastSequence + updates.count }
        writers := db.writers.drop writers
        leader := .idle }
  | _ => none

/-- `DeleteObsoleteFiles`, for the logs. -/
def deleteObsoleteFiles (db : Db) : Db :=
  { db with oldLogs := db.oldLogs.filter fun log => db.versions.logNumber ≤ log.number }

def compactMemTable (o : Options) (db : Db) : Option Db :=
  db.imm.bind fun imm =>
    let number := db.versions.nextFileNumber
    (writeLevel0Table number (o.tableSize.finished imm.contents) imm (some db.versions.current)).map
      fun news =>
        let versions := { db.versions with nextFileNumber := number + 1 }.logAndApply ⟨[], news⟩
          (some db.logfileNumber)
        { db with versions := versions, manifest := versions, imm := none }.deleteObsoleteFiles

/-- `InstallCompactionResults`, and the installation of a trivial move. -/
def install (o : Options) (c : Compaction) (db : Db) : Db :=
  let number := db.versions.nextFileNumber
  let versions := { db.versions with
    nextFileNumber := number + c.outputCount o.tableSize }.logAndApply (c.edit o.tableSize number)
      none
  { db with versions := versions, manifest := versions, compaction := none }.deleteObsoleteFiles

/-- `BackgroundCompaction`, where there is no table to write, for the file that is picked. -/
def startCompaction (o : Options) (level i : ℕ) (db : Db) : Option Db :=
  if db.compaction.isSome ∨ db.imm.isSome ∨ kNumLevels ≤ level + 1 then none
  else
    (db.versions.current.files level)[i]?.bind fun f =>
      (db.versions.current.pickCompaction level f db.versions.lastSequence).map fun c =>
        if c.isTrivialMove then db.install o c else { db with compaction := some c }

def finishCompaction (o : Options) (db : Db) : Option Db :=
  db.compaction.map fun c => db.install o c

end Db

/-- What `Recover` has read from the logs. -/
structure Recovery where
  mem : Option MemTable
  news : List (ℕ × FileMetaData)
  nextFileNumber : ℕ
  maxSequence : ℕ

namespace Recovery

variable (o : Options)

def writeTable (r : Recovery) : Option Recovery :=
  match r.mem with
  | none => some r
  | some mem =>
      (writeLevel0Table r.nextFileNumber (o.tableSize.finished mem.contents) mem none).map fun news =>
        { r with mem := none, news := r.news ++ news, nextFileNumber := r.nextFileNumber + 1 }

/-- One round of the loop of `RecoverLogFile`; errors are ignored. -/
def record (r : Recovery) (record : Slice) : Option Recovery :=
  if h : kHeader ≤ record.length then
    let batch := WriteBatch.setContents record h
    (batch.insertInto (r.mem.getD .new)).bind fun (_, mem) =>
      let lastSeq := (batch.sequence + batch.count + (2 ^ 64 - 1)) % 2 ^ 64
      let r := { r with mem := some mem, maxSequence := max r.maxSequence lastSeq }
      if o.writeBufferSize < o.approximateMemoryUsage mem then r.writeTable o else some r
  else some r

def records : List Slice → Recovery → Option Recovery
  | [], r => some r
  | slice :: slices, r => (r.record o slice).bind (records slices)

/-- `RecoverLogFile`. -/
def logFile (log : Slice) (r : Recovery) : Option Recovery :=
  (LogReader.readRecords o.crc32c (log.length + 1) (.new log)).bind fun read =>
    (records o read.1 r).bind (writeTable o)

def logFiles : List LogFile → Recovery → Option Recovery
  | [], r => some r
  | log :: logs, r =>
      (r.logFile o log.contents).bind fun r =>
        logFiles logs { r with nextFileNumber := max r.nextFileNumber (log.number + 1) }

end Recovery

namespace Db

/-- `DB::Open` with what is on the disk. -/
def openDb (o : Options) (manifest : VersionSet) (logs : List LogFile) : Option Db :=
  let live := (logs.filter fun log => manifest.logNumber ≤ log.number).insertionSort
    fun a b => a.number ≤ b.number
  (Recovery.logFiles o live ⟨none, [], manifest.nextFileNumber + 1, 0⟩).map fun r =>
    let versions : VersionSet :=
      { current := manifest.current
        logNumber := manifest.logNumber
        nextFileNumber := r.nextFileNumber + 1
        lastSequence := max manifest.lastSequence r.maxSequence }
    let versions := versions.logAndApply ⟨[], r.news⟩ (some r.nextFileNumber)
    { writers := []
      leader := .idle
      mem := .new
      imm := none
      logfileNumber := r.nextFileNumber
      log := .new
      synced := 0
      oldLogs := logs
      versions := versions
      manifest := versions
      compaction := none
      readers := [] : Db }.deleteObsoleteFiles

/-- The manifest `NewDB` writes. -/
def newManifest : VersionSet := ⟨⟨fun _ => []⟩, 0, 2, 0⟩

/-- A crash and the next `DB::Open`. -/
def crash (o : Options) (extra : ℕ → ℕ) (db : Db) : Option Db :=
  openDb o db.manifest ((db.oldLogs ++ [db.logFile]).map (LogFile.crash extra))

end Db

inductive Event
  | write (ops : Option (List Op)) (sync : Bool)
  | lead
  | makeRoom
  | addRecord
  | insertInto
  | finish
  | compactMemTable
  | startCompaction (level i : ℕ)
  | finishCompaction
  | beginRead (key : Slice)
  | endRead (i : ℕ)
  | crash (extra : ℕ → ℕ)

def Db.step (o : Options) (db : Db) : Event → Option Db
  | .write ops sync => db.write ops sync
  | .lead => db.lead
  | .makeRoom => db.makeRoom o
  | .addRecord => db.addRecord o
  | .insertInto => db.insertInto
  | .finish => db.finish
  | .compactMemTable => db.compactMemTable o
  | .startCompaction level i => db.startCompaction o level i
  | .finishCompaction => db.finishCompaction o
  | .beginRead key => db.beginRead key
  | .endRead i => db.endRead i
  | .crash extra => db.crash o extra

end Leveldb

end UnifyFramework
