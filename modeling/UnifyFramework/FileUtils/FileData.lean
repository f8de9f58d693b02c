import Mathlib.Data.List.TakeDrop
import UnifyFramework.FileUtils.FullPathCache

/-!
# Where files are read

`CCFileUtilsAndroid::doGetFileData` reads the file at the full path of a name: from the
package if the path is relative, and from the file system if it begins with a slash. The full
path is found in a directory of the search order, comes from the cache, or is the name itself.
A cached path can be one of a directory that is no longer in the search order. Whatever calls
are made, the path is the name itself or the name behind a directory that was given as a
search path at some time, or behind the default root. Of the package only the entries below the
default root can be read.
-/

namespace UnifyFramework

namespace FileUtils

open Transition

structure Contents (α : Type) where
  archive : String → Option α
  disk : String → Option α

namespace Contents

variable {α : Type}

/-- `ZipFile::getFileData`. The list of files is made with the filter `assets/`. An entry of
the list can be read. -/
def package (contents : Contents α) (path : String) : Option α :=
  if startsWith path "assets/" then contents.archive path else none

def files (contents : Contents α) : Files where
  fileExists path := (contents.package path).isSome
  fopen path := (contents.disk path).isSome

def read (contents : Contents α) (path : String) : Option α :=
  if path.toList.head? ≠ some '/' then contents.package path else contents.disk path

end Contents

namespace CCFileUtils

variable {α : Type}

def doGetFileData (contents : Contents α) (s : CCFileUtils) (filename : String) :
    Option α × CCFileUtils :=
  if filename = "" then (none, s)
  else
    let found := s.fullPathForFilename contents.files filename
    (contents.read found.1, found.2)

/-- The path of the file that `doGetFileData` reads, if there is one. -/
def readPath (contents : Contents α) (s : CCFileUtils) (filename : String) : Option String :=
  (contents.read (s.fullPathForFilename contents.files filename).1).map fun _ =>
    (s.fullPathForFilename contents.files filename).1

def directories : FileUtilsCall → List String
  | .setSearchPaths searchPaths => searchPaths.map (complete "assets/")
  | .addSearchPath path => [complete "assets/" path]
  | _ => []

/-- The search order, and what the cache holds, is in directories of `D`. -/
structure Within (D : String → Prop) (s : CCFileUtils) : Prop where
  ordered : s.Ordered
  root : s.defaultResRootPath = "assets/"
  order : ∀ path ∈ s.searchPathArray, D (complete "assets/" path)
  cached : ∀ name path, s.fullPathCache[name]? = some path → ∃ dir, D dir ∧ path = dir ++ name

variable {D : String → Prop}

theorem splitFilename_append (filename : String) :
    (splitFilename filename).1 ++ (splitFilename filename).2 = filename := by
  rw [splitFilename, ← String.ofList_append, ← List.reverse_append, List.span_eq_takeWhile_dropWhile,
    List.takeWhile_append_dropWhile, List.reverse_reverse, String.ofList_toList]

theorem Within.findFullPath {s : CCFileUtils} (h : s.Within D) (hroot : D "assets/")
    {files : Files} {filename path : String} (hfind : s.findFullPath files filename = some path) :
    ∃ dir, D dir ∧ path = dir ++ filename := by
  have hne : s.searchResolutionsOrderArray ≠ [] := by
    rcases h.ordered.root with ⟨hempty, _⟩ | ⟨_, hne⟩
    · rw [h.root] at hempty
      exact absurd hempty (by decide)
    · exact hne
  obtain ⟨dir, hdir, hunder⟩ := List.exists_of_findSome?_eq_some hfind
  refine ⟨dir, ?_, ?_⟩
  · rw [h.ordered.check, h.root, if_neg (by decide)] at hdir
    rcases List.mem_append.mp hdir with hdir | hdir
    · obtain ⟨given, hgiven, rfl⟩ := List.mem_map.mp hdir
      exact h.order given hgiven
    · rwa [List.mem_singleton.mp hdir]
  · rw [h.ordered.findUnder_eq_some hne hunder, String.append_assoc, splitFilename_append]

/-- A full path is the name or the name below a directory, and looking it up keeps to the
directories. -/
theorem Within.fullPathForFilename {s : CCFileUtils} (h : s.Within D) (hroot : D "assets/")
    (files : Files) (filename : String) :
    ((s.fullPathForFilename files filename).1 = filename ∨
      ∃ dir, D dir ∧ (s.fullPathForFilename files filename).1 = dir ++ filename) ∧
      (s.fullPathForFilename files filename).2.Within D := by
  rw [CCFileUtils.fullPathForFilename]
  split
  · exact ⟨.inl rfl, h⟩
  cases hcache : s.fullPathCache[filename]? with
  | some path => exact ⟨.inr (h.cached filename path hcache), h⟩
  | none =>
      cases hfind : s.findFullPath files filename with
      | none => exact ⟨.inl rfl, h⟩
      | some path =>
          have hdir := h.findFullPath hroot hfind
          refine ⟨.inr hdir, ⟨h.ordered.check, h.ordered.resolutions, ?_⟩, h.root, h.order, ?_⟩
          · rcases h.ordered.root with ⟨hempty, _⟩ | hset
            · rw [h.root] at hempty
              exact absurd hempty (by decide)
            · exact .inr hset
          · intro name path' hpath'
            rw [Std.ExtTreeMap.getElem?_insert] at hpath'
            split at hpath'
            · rename_i heq
              rw [← Std.LawfulEqCmp.eq_of_compare heq, ← Option.some.inj hpath']
              exact hdir
            · exact h.cached name path' hpath'

/-- What is read stands behind a directory, or its name begins with the default root. -/
theorem Within.readPath {s : CCFileUtils} (h : s.Within D) (hroot : D "assets/")
    {contents : Contents α} {filename path : String} (hslash : filename.toList.head? ≠ some '/')
    (hread : s.readPath contents filename = some path) :
    (path = filename ∧ startsWith filename "assets/" = true) ∨
      ∃ dir, D dir ∧ path = dir ++ filename := by
  obtain ⟨text, htext, rfl⟩ := Option.map_eq_some_iff.mp hread
  rcases (h.fullPathForFilename hroot contents.files filename).1 with hname | hdir
  · rw [hname] at htext ⊢
    rw [Contents.read, if_pos hslash, Contents.package, Option.ite_none_right_eq_some] at htext
    exact .inl ⟨rfl, htext.1⟩
  · exact .inr hdir

theorem root_init (s : CCFileUtils) : s.init.defaultResRootPath = "assets/" := by
  simp only [CCFileUtils.init, updateSearchPathArrayCheck, terminated_assets]

theorem forall_mem_empty_cache {P : String → String → Prop} (name path : String)
    (h : (∅ : Std.ExtTreeMap String String)[name]? = some path) : P name path := by
  rw [Std.ExtTreeMap.getElem?_empty] at h
  cases h

theorem Within.next {s : CCFileUtils} (h : s.Within D) (hroot : D "assets/") (files : Files)
    {call : FileUtilsCall} (hcall : ∀ dir ∈ directories call, D dir) :
    (s.next files call).Within D := by
  cases call with
  | init =>
      refine ⟨h.ordered.init, root_init s, ?_, h.cached⟩
      intro path hpath
      rcases List.mem_append.mp hpath with hpath | hpath
      · exact h.order path hpath
      · rw [List.mem_singleton.mp hpath, complete_root]
        exact hroot
  | setSearchPaths searchPaths =>
      refine ⟨h.ordered.setSearchPaths searchPaths, ?_, List.forall_mem_map.mp hcall, ?_⟩
      · exact h.ordered.terminated_root.trans h.root
      · exact forall_mem_empty_cache
  | addSearchPath path =>
      refine ⟨h.ordered.addSearchPath path, h.ordered.root_addSearchPath.trans h.root, ?_, ?_⟩
      · intro given hgiven
        rw [CCFileUtils.next, CCFileUtils.addSearchPath] at hgiven
        split at hgiven
        · exact h.order given hgiven
        · rcases List.mem_append.mp hgiven with hgiven | hgiven
          · exact h.order given hgiven
          · rw [List.mem_singleton.mp hgiven]
            exact hcall _ List.mem_cons_self
      · rw [CCFileUtils.next, fullPathCache_addSearchPath]
        exact h.cached
  | purgeCachedEntries =>
      exact ⟨h.ordered.purgeCachedEntries, h.root, h.order, forall_mem_empty_cache⟩
  | fullPathForFilename filename => exact (h.fullPathForFilename hroot files filename).2

/-- The object after `init`. -/
theorem within_init (hroot : D "assets/") : new.init.Within D := by
  refine ⟨ordered_new.init, root_init new, ?_, forall_mem_empty_cache⟩
  intro path hpath
  rw [List.mem_singleton.mp hpath, complete_root]
  exact hroot

end CCFileUtils

end FileUtils

end UnifyFramework
