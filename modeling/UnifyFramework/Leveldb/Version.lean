import UnifyFramework.Leveldb.Format
import UnifyFramework.Search.Bisect

/-!
# Versions of the set of files

The files of the database stand in seven levels. Files of level zero come from tables in memory
and may overlap; the newest is the one with the largest number. The files of another level do not
overlap and stand in the order of their keys. A lookup goes through the levels one after the other
and stops at the first entry it finds for the key.
-/

namespace UnifyFramework

namespace Leveldb

def kNumLevels : ℕ := 7

def kMaxMemCompactLevel : ℕ := 2

def kTargetFileSize : ℕ := 2 * 1048576

def kMaxGrandParentOverlapBytes : ℕ := 10 * kTargetFileSize

structure FileMetaData where
  number : ℕ
  fileSize : ℕ
  smallest : Slice
  largest : Slice
  contents : List (Slice × Slice)
deriving DecidableEq, Repr

namespace FileMetaData

def smallestUserKey (f : FileMetaData) : Slice := extractUserKey f.smallest

def largestUserKey (f : FileMetaData) : Slice := extractUserKey f.largest

/-- The metadata of a file that was written: no file if there is nothing to write. -/
def ofContents (number fileSize : ℕ) (contents : List (Slice × Slice)) : Option FileMetaData :=
  contents.head?.bind fun first => contents.getLast?.map fun last =>
    ⟨number, fileSize, first.1, last.1, contents⟩

end FileMetaData

def totalFileSize (files : List FileMetaData) : ℕ := (files.map FileMetaData.fileSize).sum

/-- `FindFile`: the first file whose largest key is not before the key. -/
def findFile (files : List FileMetaData) (key : Slice) : ℕ :=
  Search.bisect
    (fun mid =>
      match files[mid]? with
      | some f => internalKeyCompare f.largest key = .lt
      | none => false)
    files.length 0 files.length

def afterFile (userKey : Slice) (f : FileMetaData) : Bool :=
  bytewiseCompare userKey f.largestUserKey = .gt

def beforeFile (userKey : Slice) (f : FileMetaData) : Bool :=
  bytewiseCompare userKey f.smallestUserKey = .lt

def someFileOverlapsRange (disjointSortedFiles : Bool) (files : List FileMetaData)
    (smallestUserKey largestUserKey : Slice) : Bool :=
  if disjointSortedFiles then
    let index := findFile files (lookupKey smallestUserKey kMaxSequenceNumber)
    match files[index]? with
    | none => false
    | some f => !beforeFile largestUserKey f
  else files.any fun f => !(afterFile smallestUserKey f || beforeFile largestUserKey f)

structure Version where
  files : ℕ → List FileMetaData

namespace Version

def overlapInLevel (v : Version) (level : ℕ) (smallestUserKey largestUserKey : Slice) : Bool :=
  someFileOverlapsRange (0 < level) (v.files level) smallestUserKey largestUserKey

/-- The loop of `GetOverlappingInputs` over the files that are left. A file of level zero that
reaches over an end of the range widens it, and the search starts again. -/
def overlappingLoop (level : ℕ) (all : List FileMetaData) :
    ℕ → Slice → Slice → List FileMetaData → List FileMetaData → Option (List FileMetaData)
  | _, _, _, [], inputs => some inputs
  | 0, _, _, _ :: _, _ => none
  | n + 1, userBegin, userEnd, f :: files, inputs =>
      if bytewiseCompare f.largestUserKey userBegin = .lt then
        overlappingLoop level all n userBegin userEnd files inputs
      else if bytewiseCompare f.smallestUserKey userEnd = .gt then
        overlappingLoop level all n userBegin userEnd files inputs
      else if level = 0 ∧ bytewiseCompare f.smallestUserKey userBegin = .lt then
        overlappingLoop level all n f.smallestUserKey userEnd all []
      else if level = 0 ∧ bytewiseCompare f.largestUserKey userEnd = .gt then
        overlappingLoop level all n userBegin f.largestUserKey all []
      else overlappingLoop level all n userBegin userEnd files (inputs ++ [f])

/-- `GetOverlappingInputs`. Each end of the range is widened at most once for each file, which
bounds the rounds of the loop. -/
def getOverlappingInputs (v : Version) (level : ℕ) (userBegin userEnd : Slice) :
    Option (List FileMetaData) :=
  let all := v.files level
  overlappingLoop level all ((2 * all.length + 1) * (all.length + 1)) userBegin userEnd all []

/-- The loop of `PickLevelForMemTableOutput`, with the levels that are left. -/
def pickLevelLoop (v : Version) (smallestUserKey largestUserKey : Slice) : ℕ → ℕ → Option ℕ
  | 0, level => some level
  | n + 1, level =>
      if v.overlapInLevel (level + 1) smallestUserKey largestUserKey then some level
      else if level + 2 < kNumLevels then
        (v.getOverlappingInputs (level + 2) smallestUserKey largestUserKey).bind fun overlaps =>
          if totalFileSize overlaps > kMaxGrandParentOverlapBytes then some level
          else pickLevelLoop v smallestUserKey largestUserKey n (level + 1)
      else pickLevelLoop v smallestUserKey largestUserKey n (level + 1)

def pickLevelForMemTableOutput (v : Version) (smallestUserKey largestUserKey : Slice) : Option ℕ :=
  if v.overlapInLevel 0 smallestUserKey largestUserKey then some 0
  else pickLevelLoop v smallestUserKey largestUserKey kMaxMemCompactLevel 0

end Version

/-- What a lookup in a file leaves in its `Saver`. -/
inductive SaverState
  | notFound
  | found (value : Slice)
  | deleted
  | corrupt
deriving DecidableEq, Repr

/-- A lookup goes on to the next file only if it has found nothing. -/
def SaverState.ends : SaverState → Option SaverState
  | .notFound => none
  | state => some state

def saveValue (userKey ikey value : Slice) : SaverState :=
  match parseInternalKey ikey with
  | none => .corrupt
  | some parsedKey =>
      if bytewiseCompare parsedKey.userKey userKey = .eq then
        if parsedKey.type = .value then .found value else .deleted
      else .notFound

namespace FileMetaData

/-- `TableCache::Get`: the first entry that is not before the key is given to `SaveValue`. -/
def get (f : FileMetaData) (userKey ikey : Slice) : SaverState :=
  match f.contents.find? fun entry => internalKeyCompare entry.1 ikey ≠ .lt with
  | none => .notFound
  | some entry => saveValue userKey entry.1 entry.2

end FileMetaData

namespace Version

def searchedFiles (v : Version) (userKey ikey : Slice) (level : ℕ) : List FileMetaData :=
  if level = 0 then
    let overlapping := (v.files 0).filter fun f =>
      bytewiseCompare userKey f.smallestUserKey ≠ .lt ∧ bytewiseCompare userKey f.largestUserKey ≠ .gt
    overlapping.mergeSort fun a b => b.number ≤ a.number
  else
    match (v.files level)[findFile (v.files level) ikey]? with
    | none => []
    | some f => if bytewiseCompare userKey f.smallestUserKey = .lt then [] else [f]

/-- `Version::Get`: the search ends at the first file that has an entry for the key. -/
def get (v : Version) (userKey : Slice) (sequence : ℕ) : SaverState :=
  let ikey := lookupKey userKey sequence
  let found := (List.range kNumLevels).findSome? fun level =>
    (v.searchedFiles userKey ikey level).findSome? fun f => (f.get userKey ikey).ends
  found.getD .notFound

end Version

end Leveldb

end UnifyFramework
