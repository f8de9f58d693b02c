import Mathlib.Data.List.Find
import Std.Data.ExtTreeMap
import UnifyFramework.Text.Bytes
import UnifyFramework.Text.Lines
import UnifyFramework.Transition.Run

/-!
# The storage of the scripts

`storage.saveString` and `storage.getString` keep strings in a LevelDB, which is a map of byte
strings. A string of a script may hold any bytes, but on its way to the database and back it is
a `const char*`, and so it is cut at its first NUL byte. Keys that agree up to there share one
place in the database, and of a value the part behind is lost. The storage is the map that it is
meant to be exactly as long as no call comes upon the place of another key and no value that is
asked for holds a NUL byte.
-/

namespace UnifyFramework

namespace Storage

open Transition

abbrev LevelDb := Std.ExtTreeMap Bytes Bytes

def setValueForKey (levelDb : LevelDb) (key value : Bytes) : LevelDb := levelDb.insert key value

def getValueForKey (levelDb : LevelDb) (key defaultValue : Bytes) : Bytes :=
  match levelDb[key]? with
  | none => defaultValue
  | some value => value

/-- What is behind the `const char*` of a string. -/
def cStr (data : Bytes) : Bytes := Text.upTo 0 data

def jsbSaveString (levelDb : LevelDb) (key value : Bytes) : LevelDb :=
  setValueForKey levelDb (cStr key) (cStr value)

/-- The result goes through `c_str()` once more. -/
def jsbGetString (levelDb : LevelDb) (key defaultValue : Bytes) : Bytes :=
  cStr (getValueForKey levelDb (cStr key) (cStr defaultValue))

inductive StorageCall
  | saveString (key value : Bytes)
  | getString (key defaultValue : Bytes)
  deriving DecidableEq

structure State where
  levelDb : LevelDb
  calls : List StorageCall

namespace State

def new : State := ⟨∅, []⟩

def step (s : State) (call : StorageCall) : Option State :=
  match call with
  | .saveString key value => some ⟨jsbSaveString s.levelDb key value, s.calls ++ [call]⟩
  | .getString _ _ => some ⟨s.levelDb, s.calls ++ [call]⟩

end State

def saves (calls : List StorageCall) : List (Bytes × Bytes) :=
  calls.filterMap fun
    | .saveString key value => some (key, value)
    | .getString _ _ => none

/-- The value of the last `saveString` whose key passes the test. -/
def lastWhere (test : Bytes → Bool) (calls : List StorageCall) : Option Bytes :=
  ((saves calls).reverse.find? fun save => test save.1).map Prod.snd

/-- The value of the last `saveString` with exactly this key. -/
def lastSaved (calls : List StorageCall) (key : Bytes) : Option Bytes :=
  lastWhere (fun k => decide (k = key)) calls

namespace State

def Separate (s : State) (key : Bytes) : Prop :=
  ∀ save ∈ saves s.calls, cStr save.1 = cStr key → save.1 = key

def Faithful (s : State) : StorageCall → Prop
  | .saveString key _ => s.Separate key
  | .getString key defaultValue => s.Separate key ∧
      jsbGetString s.levelDb key defaultValue = (lastSaved s.calls key).getD defaultValue

/-- The call has its place to itself, and what it asks for holds no NUL byte. -/
def Fits (s : State) : StorageCall → Prop
  | .saveString key _ => s.Separate key
  | .getString key defaultValue => s.Separate key ∧
      0 ∉ (lastSaved s.calls key).getD defaultValue

instance (s : State) (key : Bytes) : Decidable (s.Separate key) :=
  inferInstanceAs (Decidable (∀ save ∈ saves s.calls, cStr save.1 = cStr key → save.1 = key))

instance (s : State) : (call : StorageCall) → Decidable (s.Faithful call)
  | .saveString key _ => inferInstanceAs (Decidable (s.Separate key))
  | .getString key defaultValue => inferInstanceAs (Decidable (s.Separate key ∧
      jsbGetString s.levelDb key defaultValue = (lastSaved s.calls key).getD defaultValue))

instance (s : State) : (call : StorageCall) → Decidable (s.Fits call)
  | .saveString key _ => inferInstanceAs (Decidable (s.Separate key))
  | .getString key defaultValue => inferInstanceAs (Decidable (s.Separate key ∧
      0 ∉ (lastSaved s.calls key).getD defaultValue))

end State

theorem lastWhere_saveString (test : Bytes → Bool) (calls : List StorageCall)
    (key value : Bytes) :
    lastWhere test (calls ++ [.saveString key value]) =
      if test key then some value else lastWhere test calls := by
  have hsaves : saves (calls ++ [.saveString key value]) = saves calls ++ [(key, value)] :=
    List.filterMap_append
  rw [lastWhere, hsaves, List.reverse_append, List.reverse_singleton, List.singleton_append,
    List.find?_cons]
  cases test key with
  | true => rfl
  | false => rfl

theorem lastWhere_getString (test : Bytes → Bool) (calls : List StorageCall)
    (key defaultValue : Bytes) :
    lastWhere test (calls ++ [.getString key defaultValue]) = lastWhere test calls := by
  have hsaves : saves (calls ++ [.getString key defaultValue]) = saves calls := by
    rw [saves, List.filterMap_append]
    exact List.append_nil _
  rw [lastWhere, hsaves]
  rfl

theorem lastWhere_congr {test test' : Bytes → Bool} {calls : List StorageCall}
    (h : ∀ save ∈ saves calls, test save.1 = test' save.1) :
    lastWhere test calls = lastWhere test' calls := by
  rw [lastWhere, lastWhere]
  congr 1
  exact List.find?_congr fun save hsave => h save (List.mem_reverse.mp hsave)

theorem cStr_cStr (data : Bytes) : cStr (cStr data) = cStr data :=
  Text.upTo_eq_self_iff.mpr (Text.notMem_upTo 0 data)

namespace State

def Holds (s : State) : Prop :=
  ∀ place, s.levelDb[place]? =
    (lastWhere (fun key => decide (cStr key = place)) s.calls).map cStr

theorem holds_new : new.Holds := fun _ => rfl

theorem Holds.step {s s' : State} {call : StorageCall} (h : s.Holds)
    (hs : s.step call = some s') : s'.Holds := by
  intro place
  cases call with
  | getString key defaultValue =>
      cases hs
      rw [lastWhere_getString]
      exact h place
  | saveString key value =>
      cases hs
      rw [lastWhere_saveString, jsbSaveString, setValueForKey, Std.ExtTreeMap.getElem?_insert, h]
      simp only [Std.LawfulEqCmp.compare_eq_iff_eq, decide_eq_true_eq]
      split_ifs
      · rfl
      · rfl

/-- Without another key in its place, a `getString` is answered up to the first NUL byte. -/
theorem Holds.jsbGetString_eq {s : State} (h : s.Holds) {key : Bytes} (hkey : s.Separate key)
    (defaultValue : Bytes) :
    jsbGetString s.levelDb key defaultValue = cStr ((lastSaved s.calls key).getD defaultValue) := by
  have hsame : lastWhere (fun k => decide (cStr k = cStr key)) s.calls = lastSaved s.calls key := by
    apply lastWhere_congr
    intro save hsave
    rw [decide_eq_decide]
    exact ⟨hkey save hsave, fun heq => by rw [heq]⟩
  rw [jsbGetString, getValueForKey, h (cStr key), hsame]
  cases lastSaved s.calls key with
  | none => exact cStr_cStr defaultValue
  | some value => exact cStr_cStr value

theorem Holds.faithful_iff {s : State} (h : s.Holds) (call : StorageCall) :
    s.Faithful call ↔ s.Fits call := by
  cases call with
  | saveString key value => exact Iff.rfl
  | getString key defaultValue =>
      refine and_congr_right fun hkey => ?_
      rw [h.jsbGetString_eq hkey]
      exact Text.upTo_eq_self_iff

theorem along_faithful_iff {s : State} (h : s.Holds) (calls : List StorageCall) :
    Along step Faithful s calls ↔ Along step Fits s calls :=
  along_congr (fun _ call h => h.faithful_iff call) (fun _ _ _ h _ hs => h.step hs) calls h

/-- For every sequence of calls: every call has its place to itself and every `getString`
returns the value of the last `saveString` with exactly its key, or the default if there was
none, exactly if every call has its place to itself and nothing that is asked for holds a NUL
byte. -/
theorem storage_faithful_along_iff (calls : List StorageCall) :
    Along step Faithful new calls ↔ Along step Fits new calls :=
  along_faithful_iff holds_new calls

/-- Two keys that differ behind a NUL byte share their place, and a value comes back without
what is behind its NUL byte. -/
theorem not_faithful_nulInKey_nulInValue :
    ¬ Along step Faithful new
        [.saveString [0x61, 0x00, 0x62] [0x31], .getString [0x61, 0x00, 0x63] [0x32]] ∧
      ¬ Along step Faithful new [.saveString [0x61] [0x31, 0x00, 0x32], .getString [0x61] [0x33]] ∧
      jsbGetString (jsbSaveString ∅ [0x61, 0x00, 0x62] [0x31]) [0x61, 0x00, 0x63] [0x32] = [0x31] ∧
      jsbGetString (jsbSaveString ∅ [0x61] [0x31, 0x00, 0x32]) [0x61] [0x33] = [0x31] := by
  decide

/-- A key with a NUL byte does no harm as long as it is alone in its place. -/
theorem faithful_nulInOneKey :
    Along step Faithful new
      [.saveString [0x61, 0x00, 0x62] [0x31], .saveString [0x62] [0x32],
        .getString [0x61, 0x00, 0x62] [0x33], .getString [0x63] [0x34]] :=
  (storage_faithful_along_iff _).mpr (by decide)

end State

def StorageCall.NulFree : StorageCall → Prop
  | .saveString key value => 0 ∉ key ∧ 0 ∉ value
  | .getString key defaultValue => 0 ∉ key ∧ 0 ∉ defaultValue

theorem nulFree_of_mem_saves {calls : List StorageCall} (h : ∀ call ∈ calls, call.NulFree)
    {save : Bytes × Bytes} (hsave : save ∈ saves calls) : 0 ∉ save.1 ∧ 0 ∉ save.2 := by
  obtain ⟨call, hcall, heq⟩ := List.mem_filterMap.mp hsave
  have hfree := h call hcall
  cases call with
  | saveString key value =>
      cases heq
      exact hfree
  | getString key defaultValue => cases heq

theorem nulFree_of_lastSaved {calls : List StorageCall} (h : ∀ call ∈ calls, call.NulFree)
    {key value : Bytes} (hlast : lastSaved calls key = some value) : 0 ∉ value := by
  obtain ⟨save, hfind, rfl⟩ := Option.map_eq_some_iff.mp hlast
  exact (nulFree_of_mem_saves h (List.mem_reverse.mp (List.mem_of_find?_eq_some hfind))).2

namespace State

theorem fits_of_nulFree {s : State} (h : ∀ call ∈ s.calls, call.NulFree) {call : StorageCall}
    (hcall : call.NulFree) : s.Fits call := by
  have hseparate : ∀ {key : Bytes}, 0 ∉ key → s.Separate key := by
    intro key hkey save hsave heq
    rwa [cStr, cStr, Text.upTo_eq_self_iff.mpr (nulFree_of_mem_saves h hsave).1,
      Text.upTo_eq_self_iff.mpr hkey] at heq
  cases call with
  | saveString key value => exact hseparate hcall.1
  | getString key defaultValue =>
      refine ⟨hseparate hcall.1, ?_⟩
      cases hlast : lastSaved s.calls key with
      | none => exact hcall.2
      | some value => exact nulFree_of_lastSaved h hlast

theorem calls_of_step {s s' : State} {call : StorageCall} (h : s.step call = some s') :
    s'.calls = s.calls ++ [call] := by
  cases call with
  | saveString key value =>
      cases h
      rfl
  | getString key defaultValue =>
      cases h
      rfl

/-- With strings without NUL bytes the storage is the map it is meant to be. -/
theorem along_faithful_of_nulFree {calls : List StorageCall}
    (h : ∀ call ∈ calls, call.NulFree) : Along step Faithful new calls := by
  rw [along_faithful_iff holds_new]
  have hall : ∀ s : State, (∀ call ∈ s.calls, call.NulFree) → Along step Fits s calls := by
    induction calls with
    | nil => exact fun _ _ => trivial
    | cons call calls ih =>
        obtain ⟨hcall, hrest⟩ := List.forall_mem_cons.mp h
        intro s hs
        refine ⟨fits_of_nulFree hs hcall, fun s' hs' => ih hrest s' ?_⟩
        rw [calls_of_step hs', List.forall_mem_append]
        exact ⟨hs, List.forall_mem_singleton.mpr hcall⟩
  exact hall new (List.forall_mem_nil _)

end State

end Storage

end UnifyFramework
