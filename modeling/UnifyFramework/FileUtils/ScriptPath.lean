import UnifyFramework.FileUtils.CCFileUtils
import UnifyFramework.Transition.Run

/-!
# The script path among the search paths

`CEJsEngine::setScriptPath` takes the old script path out of the search paths and appends
the new one. The removal erases what `std::find` returns, and then erases once more at the
iterator that the first `erase` returned, unless that is the end. So the path behind the old
script path goes as well, and where the old script path is not there any more, the first
`erase` is at the end of the vector, which is undefined and is `none` here. The removal
takes out the script path alone exactly when it stands in the last place and nowhere before.
-/

namespace UnifyFramework

namespace FileUtils

open Transition

/-- The script path of `CEJsEngine`, with the file utilities whose search paths it changes. -/
structure ScriptEngine where
  scriptPath : String
  fileUtils : CCFileUtils

inductive PathCall
  | setScriptPath (path : String)
  | addSearchPath (path : String)
  | setSearchPaths (searchPaths : List String)

/-- `vector::erase`. -/
def eraseAt (paths : List String) (i : ℕ) : Option (List String) :=
  if i < paths.length then some (paths.eraseIdx i) else none

/-- The two erasures of `setScriptPath`. The second one is at the place of the first. -/
def removeScriptPath (scriptPath : String) (paths : List String) : Option (List String) :=
  (eraseAt paths (paths.idxOf scriptPath)).bind fun newPaths =>
    if paths.idxOf scriptPath ≠ newPaths.length then eraseAt newPaths (paths.idxOf scriptPath)
    else some newPaths

namespace ScriptEngine

def setScriptPath (e : ScriptEngine) (path : String) : Option ScriptEngine :=
  if e.scriptPath = "" then some ⟨path, e.fileUtils.addSearchPath path⟩
  else
    (removeScriptPath e.scriptPath e.fileUtils.searchPathArray).map fun newPaths =>
      ⟨path, (e.fileUtils.setSearchPaths newPaths).addSearchPath path⟩

def step (e : ScriptEngine) : PathCall → Option ScriptEngine
  | .setScriptPath path => e.setScriptPath path
  | .addSearchPath path => some { e with fileUtils := e.fileUtils.addSearchPath path }
  | .setSearchPaths searchPaths =>
      some { e with fileUtils := e.fileUtils.setSearchPaths searchPaths }

/-- The search paths after the script path has been changed from `old` to `path`: one
occurrence of `old` is gone, if there was one, and `path` comes last. -/
def Replaced (old path : String) (before after : List String) : Prop :=
  ((old = "" ∨ old ∉ before) ∧ after = before ++ [path]) ∨
    (old ≠ "" ∧ ∃ i ∈ List.range before.length,
      before[i]? = some old ∧ after = before.eraseIdx i ++ [path])

instance (old path : String) (before after : List String) :
    Decidable (Replaced old path before after) :=
  inferInstanceAs (Decidable ((_ ∧ _) ∨ (_ ∧ ∃ _ ∈ _, _)))

/-- `setScriptPath` with a path that is not empty changes the script path and nothing else. -/
def ReplacesScriptPath (e : ScriptEngine) : PathCall → Prop
  | .setScriptPath path => path ≠ "" → ∃ e' ∈ e.setScriptPath path,
      Replaced e.scriptPath path e.fileUtils.searchPathArray e'.fileUtils.searchPathArray
  | _ => True

instance decidableReplacesScriptPath (e : ScriptEngine) :
    (call : PathCall) → Decidable (e.ReplacesScriptPath call)
  | .setScriptPath _ => inferInstanceAs (Decidable (_ → ∃ _ ∈ _, _))
  | .addSearchPath _ | .setSearchPaths _ => inferInstanceAs (Decidable True)

/-- The script path, if there is one, is the last search path and none before. -/
def ScriptPathLast (e : ScriptEngine) : PathCall → Prop
  | .setScriptPath path => path ≠ "" → e.scriptPath = "" ∨
      e.fileUtils.searchPathArray.idxOf e.scriptPath + 1 = e.fileUtils.searchPathArray.length
  | _ => True

instance decidableScriptPathLast (e : ScriptEngine) :
    (call : PathCall) → Decidable (e.ScriptPathLast call)
  | .setScriptPath _ => inferInstanceAs (Decidable (_ → _ ∨ _))
  | .addSearchPath _ | .setSearchPaths _ => inferInstanceAs (Decidable True)

end ScriptEngine

theorem removeScriptPath_of_notMem {scriptPath : String} {paths : List String}
    (h : scriptPath ∉ paths) : removeScriptPath scriptPath paths = none := by
  have hlen : paths.idxOf scriptPath = paths.length := List.idxOf_eq_length_iff.mpr h
  rw [removeScriptPath, hlen, eraseAt, if_neg (Nat.lt_irrefl _), Option.bind_none]

theorem removeScriptPath_of_last {scriptPath : String} {paths : List String}
    (h : paths.idxOf scriptPath + 1 = paths.length) :
    removeScriptPath scriptPath paths = some (paths.eraseIdx (paths.idxOf scriptPath)) := by
  have hlt : paths.idxOf scriptPath < paths.length := by omega
  have hlen : paths.idxOf scriptPath = (paths.eraseIdx (paths.idxOf scriptPath)).length := by
    rw [List.length_eraseIdx_of_lt hlt]
    omega
  rw [removeScriptPath, eraseAt, if_pos hlt, Option.bind_some, if_neg (not_not_intro hlen)]

theorem length_of_removeScriptPath {scriptPath : String} {paths newPaths : List String}
    (hbefore : paths.idxOf scriptPath + 1 < paths.length)
    (h : removeScriptPath scriptPath paths = some newPaths) :
    newPaths.length + 2 = paths.length := by
  have hlt : paths.idxOf scriptPath < paths.length := by omega
  have hlen := List.length_eraseIdx_of_lt hlt
  have hne : paths.idxOf scriptPath ≠ (paths.eraseIdx (paths.idxOf scriptPath)).length := by omega
  have hlt' : paths.idxOf scriptPath < (paths.eraseIdx (paths.idxOf scriptPath)).length := by omega
  rw [removeScriptPath, eraseAt, if_pos hlt, Option.bind_some, if_pos hne, eraseAt,
    if_pos hlt'] at h
  rw [← Option.some.inj h, List.length_eraseIdx_of_lt hlt', hlen]
  omega

namespace ScriptEngine

theorem searchPathArray_addSearchPath {s : CCFileUtils} {path : String} (h : path ≠ "") :
    (s.addSearchPath path).searchPathArray = s.searchPathArray ++ [path] := by
  rw [CCFileUtils.addSearchPath, if_neg h]
  rfl

theorem setScriptPath_eq_some {e e' : ScriptEngine} {path : String} (hpath : path ≠ "")
    (hold : e.scriptPath ≠ "") (h : e.setScriptPath path = some e') :
    ∃ newPaths, removeScriptPath e.scriptPath e.fileUtils.searchPathArray = some newPaths ∧
      e'.fileUtils.searchPathArray = newPaths ++ [path] := by
  rw [setScriptPath, if_neg hold] at h
  obtain ⟨newPaths, hremove, rfl⟩ := Option.map_eq_some_iff.mp h
  exact ⟨newPaths, hremove, searchPathArray_addSearchPath hpath⟩

theorem length_of_replaced {old path : String} {before after : List String}
    (h : Replaced old path before after) : before.length ≤ after.length := by
  rcases h with ⟨_, rfl⟩ | ⟨_, i, hi, _, rfl⟩
  · rw [List.length_append]
    exact Nat.le_add_right _ _
  · rw [List.length_append, List.length_eraseIdx_of_lt (List.mem_range.mp hi), List.length_singleton]
    omega

theorem replaced_of_last {old path : String} {before : List String} (hold : old ≠ "")
    (h : before.idxOf old + 1 = before.length) :
    Replaced old path before (before.eraseIdx (before.idxOf old) ++ [path]) := by
  have hlt : before.idxOf old < before.length := by omega
  refine Or.inr ⟨hold, _, List.mem_range.mpr hlt, ?_, rfl⟩
  rw [List.getElem?_eq_getElem hlt, List.getElem_idxOf]

theorem replacesScriptPath_iff (e : ScriptEngine) (call : PathCall) :
    e.ReplacesScriptPath call ↔ e.ScriptPathLast call := by
  cases call with
  | addSearchPath path => exact Iff.rfl
  | setSearchPaths searchPaths => exact Iff.rfl
  | setScriptPath path =>
      refine forall_congr' fun hpath => ?_
      by_cases hold : e.scriptPath = ""
      · refine iff_of_true ⟨⟨path, e.fileUtils.addSearchPath path⟩, if_pos hold, ?_⟩ (Or.inl hold)
        exact Or.inl ⟨Or.inl hold, searchPathArray_addSearchPath hpath⟩
      · constructor
        · rintro ⟨e', he', hreplaced⟩
          obtain ⟨newPaths, hremove, hpaths⟩ := setScriptPath_eq_some hpath hold he'
          have hlen := length_of_replaced hreplaced
          rw [hpaths, List.length_append, List.length_singleton] at hlen
          have hmem : e.scriptPath ∈ e.fileUtils.searchPathArray := by
            by_contra hnot
            rw [removeScriptPath_of_notMem hnot] at hremove
            cases hremove
          have hlt := List.idxOf_lt_length_iff.mpr hmem
          refine Or.inr (Nat.le_antisymm hlt (Nat.le_of_not_lt fun hbefore => ?_))
          have hshort := length_of_removeScriptPath hbefore hremove
          omega
        · rintro (hempty | hlast)
          · exact absurd hempty hold
          · rw [setScriptPath, if_neg hold, removeScriptPath_of_last hlast]
            refine ⟨_, rfl, ?_⟩
            rw [searchPathArray_addSearchPath hpath]
            exact replaced_of_last hold hlast

theorem replaces_scriptPath_along_iff (e : ScriptEngine) (calls : List PathCall) :
    Along step ReplacesScriptPath e calls ↔ Along step ScriptPathLast e calls :=
  along_congr (I := fun _ => True) (fun e call _ => e.replacesScriptPath_iff call)
    (fun _ _ _ _ _ _ => trivial) calls trivial

def new : ScriptEngine := ⟨"", CCFileUtils.new.init⟩

/-- A path that other code has added behind the script path is lost. -/
theorem not_replaces_addedBehind :
    ¬ Along step ReplacesScriptPath new
      [.setScriptPath "scripts/", .addSearchPath "lib/", .setScriptPath "js/scripts/"] := by
  decide

/-- The two calls of `innerInitJs`. -/
theorem replaces_innerInitJs :
    Along step ReplacesScriptPath new
      [.setScriptPath "scripts/", .setScriptPath "js/scripts/"] :=
  (replaces_scriptPath_along_iff new _).mpr (by decide)

end ScriptEngine

end FileUtils

end UnifyFramework
