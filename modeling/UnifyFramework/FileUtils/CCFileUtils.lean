import Mathlib.Data.List.Basic
import Mathlib.Tactic.Common
import Std.Data.ExtTreeMap

/-!
# Search paths and full paths on Android

`CCFileUtils` looks a relative file name up in the directories of
`m_searchPathArrayCheck`, which `updateSearchPathArrayCheck` computes from the search
paths that were given: a path that is not absolute is taken below the default root, and
the default root itself comes last. A path that was found is kept in `m_fullPathCache`.
`setSearchPaths` clears the cache; `addSearchPath` does not.

The files that exist are a parameter: those in the package, which are asked for by the
zip file, and those that can be opened in the file system.
-/

namespace UnifyFramework

namespace FileUtils

structure Files where
  fileExists : String → Bool
  fopen : String → Bool

/-- The data members of `CCFileUtils` for the search. -/
structure CCFileUtils where
  defaultResRootPath : String
  searchPathArray : List String
  searchPathArrayCheck : List String
  searchResolutionsOrderArray : List String
  fullPathCache : Std.ExtTreeMap String String

/-- `strPath.find(root) == 0`. -/
def startsWith (path root : String) : Bool := root.toList.isPrefixOf path.toList

/-- `filename` up to its last slash, and what follows. -/
def splitFilename (filename : String) : String × String :=
  let parts := filename.toList.reverse.span (· ≠ '/')
  (String.ofList parts.2.reverse, String.ofList parts.1.reverse)

namespace CCFileUtils

def new : CCFileUtils := ⟨"", [], [], [], ∅⟩

def isAbsolutePath (root path : String) : Bool :=
  path.toList.head? = some '/' || startsWith path root

def isFileExist (files : Files) (root path : String) : Bool :=
  if path = "" then false
  else if path.toList.head? ≠ some '/' then
    files.fileExists (if startsWith path root then path else root ++ path)
  else files.fopen path

def getFullPathForDirectoryAndFilename (files : Files) (root directory filename : String) :
    String :=
  if isFileExist files root (directory ++ filename) then directory ++ filename else ""

def getPathForFilename (files : Files) (root filename resolutionDirectory searchPath : String) :
    String :=
  getFullPathForDirectoryAndFilename files root
    (searchPath ++ (splitFilename filename).1 ++ resolutionDirectory) (splitFilename filename).2

/-- The inner loop of `fullPathForFilename`: the first path that is found in a directory. -/
def findUnder (files : Files) (s : CCFileUtils) (filename searchPath : String) : Option String :=
  (s.searchResolutionsOrderArray.map fun resolution =>
    getPathForFilename files s.defaultResRootPath filename resolution searchPath).find? (· ≠ "")

def findFullPath (files : Files) (s : CCFileUtils) (filename : String) : Option String :=
  s.searchPathArrayCheck.findSome? (s.findUnder files filename)

def fullPathForFilename (files : Files) (s : CCFileUtils) (filename : String) :
    String × CCFileUtils :=
  if isAbsolutePath s.defaultResRootPath filename then (filename, s)
  else
    match s.fullPathCache[filename]? with
    | some path => (path, s)
    | none =>
        match s.findFullPath files filename with
        | some path => (path, { s with fullPathCache := s.fullPathCache.insert filename path })
        | none => (filename, s)

def terminated (root : String) : String :=
  match root.toList.getLast? with
  | none => root
  | some c => if c ≠ '/' ∧ c ≠ '\\' then root ++ "/" else root

/-- A search path as it stands in `m_searchPathArrayCheck`. -/
def complete (root path : String) : String := if isAbsolutePath root path then path else root ++ path

def updateSearchPathArrayCheck (s : CCFileUtils) : CCFileUtils :=
  let root := terminated s.defaultResRootPath
  { s with
    defaultResRootPath := root
    searchPathArrayCheck :=
      s.searchPathArray.map (complete root) ++ if root = "" then [] else [root] }

/-- `CCFileUtilsAndroid::init`, with the `init` of the base class. -/
def init (s : CCFileUtils) : CCFileUtils :=
  updateSearchPathArrayCheck
    { s with
      defaultResRootPath := "assets/"
      searchPathArray := s.searchPathArray ++ ["assets/"]
      searchResolutionsOrderArray := s.searchResolutionsOrderArray ++ [""] }

def purgeCachedEntries (s : CCFileUtils) : CCFileUtils := { s with fullPathCache := ∅ }

def setSearchPaths (s : CCFileUtils) (searchPaths : List String) : CCFileUtils :=
  updateSearchPathArrayCheck { s with fullPathCache := ∅, searchPathArray := searchPaths }

/-- The cache is left as it is. -/
def addSearchPath (s : CCFileUtils) (path : String) : CCFileUtils :=
  if path = "" then s
  else updateSearchPathArrayCheck { s with searchPathArray := s.searchPathArray ++ [path] }

end CCFileUtils

end FileUtils

end UnifyFramework
