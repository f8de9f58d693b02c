import UnifyFramework.Leveldb.VersionEdit

/-!
# Compactions

A compaction takes some files of a level and the files of the next level that they overlap, merges
what they hold and writes it to files of the next level. It leaves out what no reader can see: the
entries behind a newer one of the same key, and deletions of keys that no deeper level has.
-/

namespace UnifyFramework

namespace Leveldb

/-- The size of a file of some entries: what `FileSize` says while it is built, and when it is
finished. -/
structure TableSizes where
  building : List (Slice × Slice) → ℕ
  finished : List (Slice × Slice) → ℕ

def kExpandedCompactionByteSizeLimit : ℕ := 25 * kTargetFileSize

/-- The inputs of a compaction at its level and at the next one, with the version they were picked
from and the sequence number below which nobody reads. -/
structure Compaction where
  level : ℕ
  inputs0 : List FileMetaData
  inputs1 : List FileMetaData
  grandparents : List FileMetaData
  inputVersion : Version
  smallestSnapshot : ℕ

/-- One round of the loop of `GetRange`. -/
def widenRange (range : Slice × Slice) (f : FileMetaData) : Slice × Slice :=
  (if internalKeyCompare f.smallest range.1 = .lt then f.smallest else range.1,
    if internalKeyCompare f.largest range.2 = .gt then f.largest else range.2)

/-- `VersionSet::GetRange`, of inputs that are not empty. -/
def getRange : List FileMetaData → Option (Slice × Slice)
  | [] => none
  | f :: inputs => some (inputs.foldl widenRange (f.smallest, f.largest))

namespace Version

/-- `GetOverlappingInputs` for the range of some files. -/
def overlappingFiles (v : Version) (level : ℕ) (inputs : List FileMetaData) :
    Option (List FileMetaData) :=
  (getRange inputs).bind fun range =>
    v.getOverlappingInputs level (extractUserKey range.1) (extractUserKey range.2)

/-- `SetupOtherInputs`: the inputs of the next level, and more inputs of the level itself if they
do not add to those of the next one. -/
def setupOtherInputs (v : Version) (level : ℕ) (inputs0 : List FileMetaData) :
    Option (List FileMetaData × List FileMetaData) :=
  (v.overlappingFiles (level + 1) inputs0).bind fun inputs1 =>
    if inputs1 = [] then some (inputs0, inputs1)
    else
      (v.overlappingFiles level (inputs0 ++ inputs1)).bind fun expanded0 =>
        if inputs0.length < expanded0.length ∧
            totalFileSize inputs1 + totalFileSize expanded0 < kExpandedCompactionByteSizeLimit then
          (v.overlappingFiles (level + 1) expanded0).map fun expanded1 =>
            if expanded1.length = inputs1.length then (expanded0, expanded1) else (inputs0, inputs1)
        else some (inputs0, inputs1)

/-- `PickCompaction` for the level and the file it has chosen. -/
def pickCompaction (v : Version) (level : ℕ) (f : FileMetaData) (smallestSnapshot : ℕ) :
    Option Compaction :=
  (if level = 0 then v.overlappingFiles 0 [f] else some [f]).bind fun inputs0 =>
    (v.setupOtherInputs level inputs0).bind fun (inputs0, inputs1) =>
      (if level + 2 < kNumLevels then v.overlappingFiles (level + 2) (inputs0 ++ inputs1)
        else some []).map fun grandparents =>
        ⟨level, inputs0, inputs1, grandparents, v, smallestSnapshot⟩

end Version

namespace Compaction

def isTrivialMove (c : Compaction) : Bool :=
  c.inputs0.length = 1 ∧ c.inputs1.length = 0 ∧
    totalFileSize c.grandparents ≤ kMaxGrandParentOverlapBytes

/-- The children of the merging iterator: the files of level zero, and the files of another level
one after the other. -/
def inputGroups (c : Compaction) : List (List FileMetaData) :=
  (if c.level = 0 then c.inputs0.map fun f => [f] else [c.inputs0]) ++ [c.inputs1]

/-- What the merging iterator goes through: it takes the smallest key of its children. -/
def mergedInput (c : Compaction) : List (Slice × Slice) :=
  (c.inputGroups.map fun files => files.flatMap FileMetaData.contents).foldr
    (fun child rest => child.merge rest fun a b => internalKeyCompare a.1 b.1 ≠ .gt) []

/-- What `DoCompactionWork` and its helpers keep from entry to entry. -/
structure State where
  currentUserKey : Option Slice
  lastSequenceForKey : ℕ
  levelPtrs : ℕ → ℕ
  grandparentIndex : ℕ
  seenKey : Bool
  overlappedBytes : ℕ
  outputs : List (List (Slice × Slice))
  builder : List (Slice × Slice)

def initialState : State where
  currentUserKey := none
  lastSequenceForKey := kMaxSequenceNumber
  levelPtrs := fun _ => 0
  grandparentIndex := 0
  seenKey := false
  overlappedBytes := 0
  outputs := []
  builder := []

/-- `FinishCompactionOutputFile`, if there is an output file. -/
def finishOutput (st : State) : State :=
  if st.builder = [] then st else { st with outputs := st.outputs ++ [st.builder], builder := [] }

def shouldStopBefore (c : Compaction) (key : Slice) (st : State) : Bool × State :=
  let passed := (c.grandparents.drop st.grandparentIndex).takeWhile fun f =>
    internalKeyCompare key f.largest = .gt
  let overlappedBytes :=
    if st.seenKey then st.overlappedBytes + totalFileSize passed else st.overlappedBytes
  let stop : Bool := kMaxGrandParentOverlapBytes < overlappedBytes
  (stop,
    { st with
      grandparentIndex := st.grandparentIndex + passed.length
      seenKey := true
      overlappedBytes := if stop then 0 else overlappedBytes })

/-- One level of `IsBaseLevelForKey`: the pointer moves on to the first file that does not end
before the key. -/
def advance (files : List FileMetaData) (userKey : Slice) (ptr : ℕ) : ℕ × Bool :=
  let passed := (files.drop ptr).takeWhile fun f =>
    bytewiseCompare userKey f.largestUserKey = .gt
  let ptr := ptr + passed.length
  let inRange : Bool :=
    match files[ptr]? with
    | none => false
    | some f => bytewiseCompare userKey f.smallestUserKey ≠ .lt
  (ptr, inRange)

/-- `IsBaseLevelForKey` for the levels that are left. -/
def isBaseLevelForKey (v : Version) (userKey : Slice) : List ℕ → (ℕ → ℕ) → Bool × (ℕ → ℕ)
  | [], levelPtrs => (true, levelPtrs)
  | level :: levels, levelPtrs =>
      let (ptr, inRange) := advance (v.files level) userKey (levelPtrs level)
      let levelPtrs := Function.update levelPtrs level ptr
      if inRange then (false, levelPtrs) else isBaseLevelForKey v userKey levels levelPtrs

def deeperLevels (c : Compaction) : List ℕ :=
  (List.range kNumLevels).filter fun level => c.level + 2 ≤ level

def dropEntry (c : Compaction) (key : Slice) (st : State) : Bool × State :=
  match parseInternalKey key with
  | none => (false, { st with currentUserKey := none, lastSequenceForKey := kMaxSequenceNumber })
  | some ikey =>
      let first : Bool :=
        match st.currentUserKey with
        | none => true
        | some userKey => bytewiseCompare ikey.userKey userKey ≠ .eq
      let lastSequenceForKey := if first then kMaxSequenceNumber else st.lastSequenceForKey
      let st := { st with
        currentUserKey := if first then some ikey.userKey else st.currentUserKey
        lastSequenceForKey := ikey.sequence }
      if lastSequenceForKey ≤ c.smallestSnapshot then (true, st)
      else if ikey.type = .deletion ∧ ikey.sequence ≤ c.smallestSnapshot then
        let (base, levelPtrs) :=
          isBaseLevelForKey c.inputVersion ikey.userKey c.deeperLevels st.levelPtrs
        (base, { st with levelPtrs := levelPtrs })
      else (false, st)

/-- One round of `DoCompactionWork`. -/
def processEntry (tableSize : TableSizes) (c : Compaction) (st : State)
    (entry : Slice × Slice) : State :=
  let (stop, st) := c.shouldStopBefore entry.1 st
  let st := if stop then finishOutput st else st
  let (drop, st) := c.dropEntry entry.1 st
  if drop then st
  else
    let st := { st with builder := st.builder ++ [entry] }
    if kTargetFileSize ≤ tableSize.building st.builder then finishOutput st else st

/-- `DoCompactionWork`: what the output files hold. -/
def doCompactionWork (tableSize : TableSizes) (c : Compaction) :
    List (List (Slice × Slice)) :=
  (finishOutput (c.mergedInput.foldl (c.processEntry tableSize) initialState)).outputs

def outputFiles (tableSize : TableSizes) :
    ℕ → List (List (Slice × Slice)) → List FileMetaData
  | _, [] => []
  | number, contents :: outputs =>
      (FileMetaData.ofContents number (tableSize.finished contents) contents).toList ++
        outputFiles tableSize (number + 1) outputs

def outputCount (tableSize : TableSizes) (c : Compaction) : ℕ :=
  if c.isTrivialMove then 0 else (c.doCompactionWork tableSize).length

def inputDeletions (c : Compaction) : List (ℕ × ℕ) :=
  c.inputs0.map (fun f => (c.level, f.number)) ++ c.inputs1.map fun f => (c.level + 1, f.number)

/-- The edit of `InstallCompactionResults`, or of a trivial move. -/
def edit (tableSize : TableSizes) (c : Compaction) (nextFileNumber : ℕ) :
    VersionEdit where
  deletedFiles := c.inputDeletions
  newFiles :=
    if c.isTrivialMove then c.inputs0.map fun f => (c.level + 1, f)
    else (outputFiles tableSize nextFileNumber (c.doCompactionWork tableSize)).map fun f =>
      (c.level + 1, f)

end Compaction

end Leveldb

end UnifyFramework
