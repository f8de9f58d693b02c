import UnifyFramework.FileUtils.CCFileUtils
import UnifyFramework.Transition.Run

/-!
# Transparency of the full-path cache

A cached path is the one that a search would find as long as every change of the search
order keeps it first. All operations but `addSearchPath` clear the cache or leave the
order as it is. `addSearchPath` puts the new directory in front of the default root, so a
name that was found only in the default root is then served from the cache although the
search would find it in the new directory.
-/

namespace UnifyFramework

namespace FileUtils

open Transition

inductive FileUtilsCall
  | init
  | setSearchPaths (searchPaths : List String)
  | addSearchPath (path : String)
  | purgeCachedEntries
  | fullPathForFilename (filename : String)

namespace CCFileUtils

def next (files : Files) (s : CCFileUtils) : FileUtilsCall → CCFileUtils
  | .init => s.init
  | .setSearchPaths searchPaths => s.setSearchPaths searchPaths
  | .addSearchPath path => s.addSearchPath path
  | .purgeCachedEntries => s.purgeCachedEntries
  | .fullPathForFilename filename => (s.fullPathForFilename files filename).2

def step (files : Files) (s : CCFileUtils) (call : FileUtilsCall) : Option CCFileUtils :=
  some (s.next files call)

def Transparent (files : Files) (s : CCFileUtils) : Prop :=
  ∀ filename, (s.fullPathForFilename files filename).1 =
    (s.purgeCachedEntries.fullPathForFilename files filename).1

/-- The condition on `addSearchPath`: the directory is the default root, or every cached
name that has a file in it is found in one of the search paths that stand before it. -/
def Keeps (files : Files) (s : CCFileUtils) : FileUtilsCall → Prop
  | .addSearchPath path =>
      path = "" ∨ path = s.defaultResRootPath ∨ ∀ entry ∈ s.fullPathCache.toList,
        (s.findUnder files entry.1 (complete s.defaultResRootPath path)).isSome →
          ∃ earlier ∈ s.searchPathArray,
            (s.findUnder files entry.1 (complete s.defaultResRootPath earlier)).isSome
  | _ => True

instance decidableKeeps (files : Files) (s : CCFileUtils) :
    (call : FileUtilsCall) → Decidable (s.Keeps files call)
  | .init => inferInstanceAs (Decidable True)
  | .setSearchPaths _ => inferInstanceAs (Decidable True)
  | .addSearchPath _ => inferInstanceAs (Decidable (_ ∨ _ ∨ ∀ _ ∈ _, _ → _))
  | .purgeCachedEntries => inferInstanceAs (Decidable True)
  | .fullPathForFilename _ => inferInstanceAs (Decidable True)

/-- The object before `init`, without root and cache, or after it. -/
structure Ordered (s : CCFileUtils) : Prop where
  check : s.searchPathArrayCheck = s.searchPathArray.map (complete s.defaultResRootPath) ++
    if s.defaultResRootPath = "" then [] else [s.defaultResRootPath]
  resolutions : ∀ resolution ∈ s.searchResolutionsOrderArray, resolution = ""
  root : s.defaultResRootPath = "" ∧ s.fullPathCache = ∅ ∨
    s.defaultResRootPath = "assets/" ∧ s.searchResolutionsOrderArray ≠ []

theorem ordered_new : Ordered new :=
  ⟨rfl, fun _ h => absurd h List.not_mem_nil, Or.inl ⟨rfl, rfl⟩⟩

theorem terminated_assets : terminated "assets/" = "assets/" := by decide

theorem Ordered.terminated_root {s : CCFileUtils} (h : s.Ordered) :
    terminated s.defaultResRootPath = s.defaultResRootPath := by
  rcases h.root with ⟨hroot, _⟩ | ⟨hroot, _⟩
  · rw [hroot]
    decide
  · rw [hroot, terminated_assets]

/-- With one more search path, the order has its directory before the default root. -/
theorem Ordered.addSearchPath {s : CCFileUtils} (h : s.Ordered) (path : String) :
    (s.addSearchPath path).Ordered := by
  by_cases hpath : path = ""
  · rwa [CCFileUtils.addSearchPath, if_pos hpath]
  · rw [CCFileUtils.addSearchPath, if_neg hpath]
    refine ⟨?_, h.resolutions, ?_⟩
    · simp only [updateSearchPathArrayCheck]
    · simpa only [updateSearchPathArrayCheck, h.terminated_root] using h.root

theorem Ordered.setSearchPaths {s : CCFileUtils} (h : s.Ordered) (searchPaths : List String) :
    (s.setSearchPaths searchPaths).Ordered := by
  refine ⟨?_, h.resolutions, ?_⟩
  · simp only [CCFileUtils.setSearchPaths, updateSearchPathArrayCheck]
  · simp only [CCFileUtils.setSearchPaths, updateSearchPathArrayCheck, h.terminated_root]
    exact h.root.imp (fun hroot => ⟨hroot.1, trivial⟩) id

theorem Ordered.init {s : CCFileUtils} (h : s.Ordered) : s.init.Ordered := by
  refine ⟨?_, ?_, Or.inr ?_⟩
  · simp only [CCFileUtils.init, updateSearchPathArrayCheck]
  · intro resolution hres
    rcases List.mem_append.mp hres with hold | hnew
    · exact h.resolutions resolution hold
    · exact List.mem_singleton.mp hnew
  · refine ⟨?_, by simp [CCFileUtils.init, updateSearchPathArrayCheck]⟩
    simp only [CCFileUtils.init, updateSearchPathArrayCheck, terminated_assets]

theorem Ordered.purgeCachedEntries {s : CCFileUtils} (h : s.Ordered) :
    s.purgeCachedEntries.Ordered :=
  ⟨h.check, h.resolutions, h.root.imp (fun hroot => ⟨hroot.1, rfl⟩) id⟩

def Valid (files : Files) (s : CCFileUtils) : Prop :=
  ∀ filename path, s.fullPathCache[filename]? = some path →
    isAbsolutePath s.defaultResRootPath filename = false ∧
      s.findFullPath files filename = some path

theorem valid_of_empty {files : Files} {s : CCFileUtils} (h : s.fullPathCache = ∅) :
    s.Valid files := by
  intro filename path hpath
  rw [h, Std.ExtTreeMap.getElem?_empty] at hpath
  cases hpath

theorem Valid.transparent {files : Files} {s : CCFileUtils} (h : s.Valid files) :
    s.Transparent files := by
  intro filename
  have hsame : s.purgeCachedEntries.findFullPath files filename = s.findFullPath files filename :=
    rfl
  simp only [fullPathForFilename, hsame]
  change (if isAbsolutePath s.defaultResRootPath filename then (filename, s) else _).1 =
    (if isAbsolutePath s.defaultResRootPath filename then (filename, s.purgeCachedEntries)
      else _).1
  split
  · rfl
  · simp only [CCFileUtils.purgeCachedEntries, Std.ExtTreeMap.getElem?_empty]
    cases hcache : s.fullPathCache[filename]? with
    | none => cases s.findFullPath files filename <;> rfl
    | some path => rw [(h filename path hcache).2]

theorem Valid.fullPathForFilename {files : Files} {s : CCFileUtils} (h : s.Valid files)
    (filename : String) : (s.fullPathForFilename files filename).2.Valid files := by
  rw [CCFileUtils.fullPathForFilename]
  split
  · exact h
  · rename_i hrelative
    split
    · exact h
    · split
      · rename_i path hfind
        intro filename' path' hpath'
        change (s.fullPathCache.insert filename path)[filename']? = some path' at hpath'
        change isAbsolutePath s.defaultResRootPath filename' = false ∧
          s.findFullPath files filename' = some path'
        rw [Std.ExtTreeMap.getElem?_insert] at hpath'
        split at hpath'
        · rename_i heq
          rw [← Std.LawfulEqCmp.eq_of_compare heq, hfind]
          exact ⟨Bool.eq_false_iff.mpr hrelative, hpath'⟩
        · exact h filename' path' hpath'
      · exact h

/-- The empty resolution is tried at least once, and trying it again finds nothing new. -/
theorem Ordered.findUnder_eq {files : Files} {s : CCFileUtils} (h : s.Ordered)
    (hne : s.searchResolutionsOrderArray ≠ []) (filename directory : String) :
    s.findUnder files filename directory =
      Option.guard (· ≠ "")
        (getPathForFilename files s.defaultResRootPath filename "" directory) := by
  have hmap : s.searchResolutionsOrderArray.map (fun resolution =>
      getPathForFilename files s.defaultResRootPath filename resolution directory) =
      List.replicate s.searchResolutionsOrderArray.length
        (getPathForFilename files s.defaultResRootPath filename "" directory) := by
    refine List.eq_replicate_iff.mpr ⟨List.length_map _, fun path hpath => ?_⟩
    obtain ⟨resolution, hres, rfl⟩ := List.mem_map.mp hpath
    rw [h.resolutions resolution hres]
  have hlen : s.searchResolutionsOrderArray.length ≠ 0 := by simpa using hne
  rw [findUnder, hmap, List.find?_replicate, if_neg hlen]
  rfl

theorem Ordered.findUnder_eq_some {files : Files} {s : CCFileUtils} (h : s.Ordered)
    (hne : s.searchResolutionsOrderArray ≠ []) {filename directory path : String}
    (hfind : s.findUnder files filename directory = some path) :
    path = directory ++ (splitFilename filename).1 ++ (splitFilename filename).2 := by
  rw [h.findUnder_eq hne, Option.guard_eq_some_iff] at hfind
  obtain ⟨rfl, hnonempty⟩ := hfind
  rw [getPathForFilename, getFullPathForDirectoryAndFilename, String.append_empty] at hnonempty ⊢
  split at hnonempty
  · rw [if_pos ‹_›]
  · exact absurd hnonempty (by decide)

/-- After `init` the search ends in the default root. -/
theorem Ordered.findFullPath_eq {files : Files} {s : CCFileUtils} (h : s.Ordered)
    (hroot : s.defaultResRootPath = "assets/") (filename : String) :
    s.findFullPath files filename =
      ((s.searchPathArray.map (complete s.defaultResRootPath)).findSome?
        (s.findUnder files filename)).or (s.findUnder files filename s.defaultResRootPath) := by
  have hne : s.defaultResRootPath ≠ "" := by
    rw [hroot]
    decide
  rw [findFullPath, h.check, if_neg hne, List.findSome?_append, List.findSome?_singleton]

theorem complete_root (root : String) : complete root root = root := by
  have hself : isAbsolutePath root root = true := by
    simp [isAbsolutePath, startsWith]
  rw [complete, if_pos hself]

/-- One more search path comes between the earlier ones and the default root. -/
theorem Ordered.findFullPath_append {files : Files} {s t : CCFileUtils} (h : s.Ordered)
    (ht : t.Ordered) {path : String} (hroot : s.defaultResRootPath = "assets/")
    (hroot' : t.defaultResRootPath = s.defaultResRootPath)
    (hpaths : t.searchPathArray = s.searchPathArray ++ [path])
    (hne : s.searchResolutionsOrderArray ≠ []) (hne' : t.searchResolutionsOrderArray ≠ [])
    (filename : String) :
    t.findFullPath files filename =
      ((s.searchPathArray.map (complete s.defaultResRootPath)).findSome?
        (s.findUnder files filename)).or
        ((s.findUnder files filename (complete s.defaultResRootPath path)).or
          (s.findUnder files filename s.defaultResRootPath)) := by
  have hunder : t.findUnder files filename = s.findUnder files filename := by
    funext directory
    rw [ht.findUnder_eq hne', h.findUnder_eq hne, hroot']
  rw [ht.findFullPath_eq (hroot'.trans hroot), hunder, hroot', hpaths, List.map_append,
    List.findSome?_append, List.map_singleton, List.findSome?_singleton, Option.or_assoc]

theorem Valid.init {files : Files} {s : CCFileUtils} (h : s.Valid files) (hs : s.Ordered) :
    s.init.Valid files := by
  rcases hs.root with ⟨_, hcache⟩ | ⟨hroot, hne⟩
  · exact valid_of_empty hcache
  · intro filename path hpath
    have hroot' : s.init.defaultResRootPath = s.defaultResRootPath := by
      rw [hroot]
      simp only [CCFileUtils.init, updateSearchPathArrayCheck, terminated_assets]
    have hne' : s.init.searchResolutionsOrderArray ≠ [] := by
      simp [CCFileUtils.init, updateSearchPathArrayCheck]
    obtain ⟨hrelative, hold⟩ := h filename path hpath
    refine ⟨hroot' ▸ hrelative, ?_⟩
    rw [hs.findFullPath_eq hroot] at hold
    rw [hs.findFullPath_append hs.init hroot hroot' rfl hne hne' filename, ← hroot, complete_root,
      Option.or_self]
    exact hold

section AddSearchPath

variable {files : Files} {s : CCFileUtils} {path : String}

theorem Ordered.findFullPath_addSearchPath (hs : s.Ordered)
    (hroot : s.defaultResRootPath = "assets/") (hne : s.searchResolutionsOrderArray ≠ [])
    (hpath : path ≠ "") (filename : String) :
    (s.addSearchPath path).findFullPath files filename =
      ((s.searchPathArray.map (complete s.defaultResRootPath)).findSome?
        (s.findUnder files filename)).or
        ((s.findUnder files filename (complete s.defaultResRootPath path)).or
          (s.findUnder files filename s.defaultResRootPath)) := by
  have hadd : s.addSearchPath path = updateSearchPathArrayCheck
      { s with searchPathArray := s.searchPathArray ++ [path] } := if_neg hpath
  refine hs.findFullPath_append (hs.addSearchPath path) hroot ?_ ?_ hne ?_ filename
  · rw [hadd]
    exact hs.terminated_root
  · rw [hadd]
    rfl
  · rw [hadd]
    exact hne

theorem Ordered.root_addSearchPath (hs : s.Ordered) :
    (s.addSearchPath path).defaultResRootPath = s.defaultResRootPath := by
  rw [CCFileUtils.addSearchPath]
  split
  · rfl
  · exact hs.terminated_root

theorem fullPathCache_addSearchPath : (s.addSearchPath path).fullPathCache = s.fullPathCache := by
  rw [CCFileUtils.addSearchPath]
  split <;> rfl

/-- A search path that is neither empty nor the default root names another directory. -/
theorem complete_ne_root (hpath : path ≠ "") {root : String} (hne : path ≠ root) :
    complete root path ≠ root := by
  rw [complete]
  split
  · exact hne
  · intro heq
    have hempty : root ++ path = root ++ "" := by rw [heq, String.append_empty]
    exact hpath ((String.append_right_inj root).mp hempty)

theorem findSome?_complete_eq_none_iff {filename : String} :
    (s.searchPathArray.map (complete s.defaultResRootPath)).findSome?
        (s.findUnder files filename) = none ↔
      ¬ ∃ earlier ∈ s.searchPathArray,
        (s.findUnder files filename (complete s.defaultResRootPath earlier)).isSome := by
  simp [List.findSome?_eq_none_iff]

theorem keeps_addSearchPath_iff : s.Keeps files (.addSearchPath path) ↔
    path = "" ∨ path = s.defaultResRootPath ∨
      ∀ filename cached, s.fullPathCache[filename]? = some cached →
        s.findUnder files filename (complete s.defaultResRootPath path) ≠ none →
          (s.searchPathArray.map (complete s.defaultResRootPath)).findSome?
            (s.findUnder files filename) ≠ none := by
  simp only [Keeps, Prod.forall, Std.ExtTreeMap.mem_toList_iff_getElem?_eq_some,
    Option.isSome_iff_ne_none, ne_eq, findSome?_complete_eq_none_iff, not_not]

theorem Valid.addSearchPath (h : s.Valid files) (hs : s.Ordered)
    (hkeeps : s.Keeps files (.addSearchPath path)) : (s.addSearchPath path).Valid files := by
  by_cases hpath : path = ""
  · rwa [CCFileUtils.addSearchPath, if_pos hpath]
  rcases hs.root with ⟨_, hcache⟩ | ⟨hroot, hne⟩
  · exact valid_of_empty (fullPathCache_addSearchPath.trans hcache)
  intro filename cached hcached
  rw [fullPathCache_addSearchPath] at hcached
  obtain ⟨hrelative, hold⟩ := h filename cached hcached
  refine ⟨hs.root_addSearchPath ▸ hrelative, ?_⟩
  rw [hs.findFullPath_eq hroot] at hold
  rw [hs.findFullPath_addSearchPath hroot hne hpath]
  rcases keeps_addSearchPath_iff.mp hkeeps with hempty | heq | hearlier
  · exact absurd hempty hpath
  · rwa [heq, complete_root, Option.or_self]
  · cases hfirst : (s.searchPathArray.map (complete s.defaultResRootPath)).findSome?
        (s.findUnder files filename) with
    | some found => rwa [hfirst] at hold
    | none =>
        -- the name is found only in the default root, so not in the new directory
        have hnot : s.findUnder files filename (complete s.defaultResRootPath path) = none := by
          by_contra hsome
          exact hearlier filename cached hcached hsome hfirst
        rw [hfirst] at hold
        rwa [hnot]

theorem fullPathForFilename_of_cached {filename cached : String}
    (hrelative : isAbsolutePath s.defaultResRootPath filename = false)
    (hcached : s.fullPathCache[filename]? = some cached) :
    (s.fullPathForFilename files filename).1 = cached := by
  rw [fullPathForFilename, if_neg (by simp [hrelative]), hcached]

theorem fullPathForFilename_purgeCachedEntries {filename found : String}
    (hrelative : isAbsolutePath s.defaultResRootPath filename = false)
    (hfound : s.findFullPath files filename = some found) :
    (s.purgeCachedEntries.fullPathForFilename files filename).1 = found := by
  have hrelative' : ¬ isAbsolutePath s.purgeCachedEntries.defaultResRootPath filename = true :=
    Bool.eq_false_iff.mp hrelative
  have hempty : s.purgeCachedEntries.fullPathCache[filename]? = none :=
    Std.ExtTreeMap.getElem?_empty
  have hfound' : s.purgeCachedEntries.findFullPath files filename = some found := hfound
  rw [fullPathForFilename, if_neg hrelative', hempty]
  simp only [hfound']

theorem Valid.keeps_of_transparent (h : s.Valid files) (hs : s.Ordered)
    (htransparent : (s.addSearchPath path).Transparent files) :
    s.Keeps files (.addSearchPath path) := by
  by_cases hpath : path = ""
  · exact Or.inl hpath
  by_cases hpathRoot : path = s.defaultResRootPath
  · exact Or.inr (Or.inl hpathRoot)
  refine keeps_addSearchPath_iff.mpr (Or.inr (Or.inr ?_))
  intro filename cached hcached hsome hfirst
  obtain ⟨hrelative, hold⟩ := h filename cached hcached
  rcases hs.root with ⟨_, hcache⟩ | ⟨hroot, hne⟩
  · rw [hcache, Std.ExtTreeMap.getElem?_empty] at hcached
    cases hcached
  -- the search now finds the name in the new directory first
  obtain ⟨found, hfound⟩ := Option.ne_none_iff_exists'.mp hsome
  have hnew : (s.addSearchPath path).findFullPath files filename = some found := by
    rw [hs.findFullPath_addSearchPath hroot hne hpath, hfirst, hfound]
    rfl
  have hrelative' : isAbsolutePath (s.addSearchPath path).defaultResRootPath filename = false :=
    hs.root_addSearchPath.symm ▸ hrelative
  have hcached' : (s.addSearchPath path).fullPathCache[filename]? = some cached := by
    rw [fullPathCache_addSearchPath]
    exact hcached
  have heq : cached = found := by
    rw [← @fullPathForFilename_of_cached files _ _ _ hrelative' hcached',
      ← fullPathForFilename_purgeCachedEntries hrelative' hnew]
    exact htransparent filename
  -- the two paths are in different directories
  rw [hs.findFullPath_eq hroot, hfirst, Option.none_or] at hold
  have hcachedPath := hs.findUnder_eq_some hne hold
  have hfoundPath := hs.findUnder_eq_some hne hfound
  rw [heq, hfoundPath, String.append_left_inj, String.append_left_inj] at hcachedPath
  exact complete_ne_root hpath hpathRoot hcachedPath

end AddSearchPath

theorem transparent_next_iff_keeps {files : Files} {s : CCFileUtils}
    (h : s.Ordered ∧ s.Valid files) (call : FileUtilsCall) :
    (s.next files call).Transparent files ↔ s.Keeps files call := by
  cases call with
  | init => exact iff_of_true (h.2.init h.1).transparent trivial
  | setSearchPaths searchPaths => exact iff_of_true (valid_of_empty rfl).transparent trivial
  | addSearchPath path =>
      exact ⟨h.2.keeps_of_transparent h.1, fun hkeeps => (h.2.addSearchPath h.1 hkeeps).transparent⟩
  | purgeCachedEntries => exact iff_of_true (valid_of_empty rfl).transparent trivial
  | fullPathForFilename filename =>
      exact iff_of_true (h.2.fullPathForFilename filename).transparent trivial

theorem Ordered.fullPathForFilename {files : Files} {s : CCFileUtils} (h : s.Ordered)
    (filename : String) : (s.fullPathForFilename files filename).2.Ordered := by
  rw [CCFileUtils.fullPathForFilename]
  split
  · exact h
  · rename_i hrelative
    split
    · exact h
    · split
      · refine ⟨h.check, h.resolutions, Or.inr (h.root.resolve_left ?_)⟩
        -- without a root every name counts as absolute
        rintro ⟨hroot, _⟩
        rw [hroot] at hrelative
        exact hrelative (by simp [isAbsolutePath, startsWith])
      · exact h

theorem ordered_valid_step {files : Files} (s : CCFileUtils) (call : FileUtilsCall)
    (s' : CCFileUtils) (h : s.Ordered ∧ s.Valid files) (hkeeps : s.Keeps files call)
    (hs' : s.step files call = some s') : s'.Ordered ∧ s'.Valid files := by
  cases hs'
  cases call with
  | init => exact ⟨h.1.init, h.2.init h.1⟩
  | setSearchPaths searchPaths => exact ⟨h.1.setSearchPaths searchPaths, valid_of_empty rfl⟩
  | addSearchPath path => exact ⟨h.1.addSearchPath path, h.2.addSearchPath h.1 hkeeps⟩
  | purgeCachedEntries => exact ⟨h.1.purgeCachedEntries, valid_of_empty rfl⟩
  | fullPathForFilename filename =>
      exact ⟨h.1.fullPathForFilename filename, h.2.fullPathForFilename filename⟩

/-- The cache is transparent after every call of a run exactly if every `addSearchPath` keeps
to the condition. -/
theorem transparent_iff_keeps_of_run (files : Files) (calls : List FileUtilsCall) :
    Along (step files) (fun s call => (s.next files call).Transparent files) new calls ↔
      Along (step files) (Keeps files) new calls :=
  along_congr (fun _ call h => transparent_next_iff_keeps h call) ordered_valid_step calls
    ⟨ordered_new, valid_of_empty rfl⟩

/-- The package has `a`, and the memory card another file of that name. -/
def cardFiles : Files := ⟨(· = "assets/a"), (· = "/sdcard/a")⟩

/-- The memory card is added before the name is looked up. -/
theorem transparent_cardFirst :
    Along (step cardFiles) (fun s call => (s.next cardFiles call).Transparent cardFiles) new
      [.init, .setSearchPaths ["x/"], .addSearchPath "/sdcard/", .fullPathForFilename "a"] :=
  (transparent_iff_keeps_of_run _ _).mpr (by decide)

/-- The name is looked up, found in the package and cached; then the memory card is added, and
the cached path is still returned. -/
theorem not_transparent_cardLater :
    (run (step cardFiles) new [.init, .setSearchPaths ["x/"], .fullPathForFilename "a",
        .addSearchPath "/sdcard/"]).map (fun s =>
          ((s.fullPathForFilename cardFiles "a").1,
            (s.purgeCachedEntries.fullPathForFilename cardFiles "a").1)) =
      some ("assets/a", "/sdcard/a") := by
  decide

end CCFileUtils

end FileUtils

end UnifyFramework
