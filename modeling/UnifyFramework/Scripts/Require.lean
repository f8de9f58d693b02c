import UnifyFramework.FileUtils.FileData
import UnifyFramework.Scripts.JsObject
import UnifyFramework.Scripts.ModuleId

/-!
# Loading modules

`require` resolves its argument and looks the identifier up in `Duktape.modLoaded`. A module
that is not there is entered before it is loaded, so that circular requests find it. The
function `Duktape.modSearch` of the framework reads the file with the name of the module and
returns its text, or null where there is no file. Without a text the module is taken as
loaded. A text is compiled, outside of any protected call, and the resulting function is
called; if the call throws, the entry is deleted and the error is thrown on.

Between the calls of `require` the scripts do what they like: they call it again, from within
modules that are still being loaded, assign the `exports` of a module table, which they have as
an argument or find in `Duktape.modLoaded`, return or throw. The files and the search paths
change as well. A run is a sequence of such events. What is left out are scripts that put or
delete properties of `Duktape.modLoaded` themselves or replace `Duktape.modSearch`.
-/

namespace UnifyFramework

namespace Scripts

open FileUtils Transition

/-- The value of `module.exports`: the object that `require` has made for the `module`-th
module, or some other value. -/
inductive Exports (β : Type)
  | fresh (module : ℕ)
  | other (value : β)
  | undefined
  deriving DecidableEq, Repr

structure Module (β : Type) where
  id : List Char
  exports : Exports β
  deriving DecidableEq, Repr

/-- A call of a module function that has not ended. -/
structure Frame where
  id : List Char
  module : ℕ
  deriving DecidableEq, Repr

/-- The state of the loader. `frames` has the innermost call first, and `opened` the paths of
the files that `modSearch` has read. -/
structure Loader (α β : Type) where
  contents : Contents α
  fileUtils : CCFileUtils
  modLoaded : JsObject ℕ
  modules : List (Module β)
  frames : List Frame
  opened : List String

/-- How a call of `require` goes on. -/
inductive Outcome (β : Type)
  | unresolved
  | returned (exports : Exports β)
  | syntaxError
  | called
  deriving DecidableEq, Repr

inductive LoaderEvent (α β : Type)
  | require (modId : Option (List Char)) (reqId : List Char)
  | assign (module : ℕ) (exports : Exports β)
  | returns
  | throws
  | fileUtils (call : FileUtilsCall)
  | contents (contents : Contents α)

variable {α β : Type}

def moduleFile (id : List Char) : String := String.ofList id ++ ".js"

theorem toList_moduleFile (id : List Char) :
    (moduleFile id).toList = id ++ ['.', 'j', 's'] := by
  rw [moduleFile, String.toList_append, String.toList_ofList]
  rfl

theorem moduleFile_ne_empty (id : List Char) : moduleFile id ≠ "" := by
  intro h
  have hlist := congrArg String.toList h
  rw [toList_moduleFile] at hlist
  exact List.append_ne_nil_of_right_ne_nil _ (by decide) hlist

theorem Canonical.of_cons {term rest : List Char} (h : Canonical (term ++ '/' :: rest)) :
    Canonical rest := by
  have hsplit : (term ++ '/' :: rest).splitOn '/' = term.splitOn '/' ++ rest.splitOn '/' :=
    List.splitOn_append_cons_self term rest
  refine ⟨fun hmem => h.1 (List.mem_append_right _ (List.mem_cons_of_mem _ hmem)), ?_⟩
  intro t ht
  refine h.2 t ?_
  rw [hsplit]
  exact List.mem_append_right _ ht

theorem Canonical.head?_ne_slash {id : List Char} (h : Canonical id) :
    (moduleFile id).toList.head? ≠ some '/' := by
  rw [toList_moduleFile]
  cases id with
  | nil => decide
  | cons c id =>
      intro hhead
      have hc : c = '/' := Option.some.inj hhead
      have hplain := h.2 [] (by rw [hc]; simp [List.splitOn_cons_eq_if_modifyHead])
      cases hplain.2

theorem Canonical.below_root {id : List Char} (h : Canonical id)
    (hroot : startsWith (moduleFile id) "assets/" = true) :
    ∃ id', Canonical id' ∧ moduleFile id = "assets/" ++ moduleFile id' := by
  rw [startsWith, List.isPrefixOf_iff_prefix, toList_moduleFile] at hroot
  obtain ⟨rest, hrest⟩ := hroot
  have hlong : "assets/".toList.length ≤ id.length := by
    by_contra hshort
    -- the slash would stand in the extension
    have hslash : (id ++ ['.', 'j', 's'])[6]? = some '/' := by
      rw [← hrest]
      rfl
    have hle : id.length ≤ 6 := Nat.lt_succ_iff.mp (Nat.not_le.mp hshort)
    rw [List.getElem?_append_right hle] at hslash
    exact absurd (List.mem_of_getElem? hslash) (by decide)
  obtain ⟨id', rfl⟩ : "assets/".toList <+: id :=
    List.prefix_of_prefix_length_le ⟨rest, hrest⟩ (List.prefix_append _ _) hlong
  have hid : Canonical ("assets".toList ++ '/' :: id') := h
  refine ⟨id', hid.of_cons, ?_⟩
  apply String.toList_injective
  rw [String.toList_append, toList_moduleFile, toList_moduleFile, List.append_assoc]

namespace Loader

def initial (contents : Contents α) : Loader α β where
  contents := contents
  fileUtils := CCFileUtils.new.init
  modLoaded := ⟨∅⟩
  modules := []
  frames := []
  opened := []

/-- Reading `exports` of a module table. -/
def exportsOf (s : Loader α β) (module : ℕ) : Exports β :=
  (s.modules[module]?.map Module.exports).getD .undefined

/-- A fresh module table is entered, and `modSearch` has looked for the file. -/
def registered (s : Loader α β) (id : List Char) : Loader α β :=
  { s with
    fileUtils := (s.fileUtils.doGetFileData s.contents (moduleFile id)).2
    modLoaded := s.modLoaded.put (String.ofList id) s.modules.length
    modules := s.modules ++ [⟨id, .fresh s.modules.length⟩]
    opened := s.opened ++ (s.fileUtils.readPath s.contents (moduleFile id)).toList }

section

variable (compiles : α → Bool)

/-- A module that is not entered yet. -/
def load (s : Loader α β) (id : List Char) : Loader α β × Outcome β :=
  match (s.fileUtils.doGetFileData s.contents (moduleFile id)).1 with
  | none => (s.registered id, .returned (.fresh s.modules.length))
  | some text =>
      if compiles text then
        ({ s.registered id with frames := ⟨id, s.modules.length⟩ :: s.frames }, .called)
      else (s.registered id, .syntaxError)

/-- `duk_bi_global_object_require`. An inherited property of the table is a function, which
has no `exports`. -/
def require (s : Loader α β) (modId : Option (List Char)) (reqId : List Char) :
    Loader α β × Outcome β :=
  match resolveModuleId reqId modId with
  | none => (s, .unresolved)
  | some id =>
      match s.modLoaded.get (String.ofList id) with
      | .own module => (s, .returned (s.exportsOf module))
      | .inherited _ => (s, .returned .undefined)
      | .undefined => s.load compiles id

def step (s : Loader α β) : LoaderEvent α β → Option (Loader α β)
  | .require modId reqId => some (s.require compiles modId reqId).1
  | .assign module exports =>
      if module < s.modules.length then
        some { s with modules := s.modules.modify module fun m => { m with exports := exports } }
      else none
  | .returns =>
      match s.frames with
      | [] => none
      | _ :: frames => some { s with frames := frames }
  | .throws =>
      match s.frames with
      | [] => none
      | frame :: frames =>
          some { s with
            modLoaded := s.modLoaded.delete (String.ofList frame.id)
            frames := frames }
  | .fileUtils call => some { s with fileUtils := s.fileUtils.next s.contents.files call }
  | .contents contents => some { s with contents := contents }

end

variable {compiles : α → Bool}

theorem require_of_own {s : Loader α β} {modId : Option (List Char)} {reqId id : List Char}
    {module : ℕ} (hresolve : resolveModuleId reqId modId = some id)
    (hown : s.modLoaded.own[String.ofList id]? = some module) :
    s.require compiles modId reqId = (s, .returned (s.exportsOf module)) := by
  rw [require, hresolve]
  simp only [JsObject.get_of_own hown]

theorem require_of_undefined {s : Loader α β} {modId : Option (List Char)} {reqId id : List Char}
    (hresolve : resolveModuleId reqId modId = some id)
    (hget : s.modLoaded.get (String.ofList id) = .undefined) :
    s.require compiles modId reqId = s.load compiles id := by
  rw [require, hresolve]
  simp only [hget]

theorem load_cases (s : Loader α β) (id : List Char) :
    (s.load compiles id).1 = s.registered id ∨
      (s.load compiles id).1 =
        { s.registered id with frames := ⟨id, s.modules.length⟩ :: s.frames } := by
  rw [load]
  split
  · exact .inl rfl
  · split
    · exact .inr rfl
    · exact .inl rfl

/-- A request leaves everything as it is, or a module that was not entered is. -/
theorem require_cases (s : Loader α β) (modId : Option (List Char)) (reqId : List Char) :
    (s.require compiles modId reqId).1 = s ∨
      ∃ id, resolveModuleId reqId modId = some id ∧
        s.modLoaded.get (String.ofList id) = .undefined ∧
          (s.require compiles modId reqId).1 = (s.load compiles id).1 := by
  cases hresolve : resolveModuleId reqId modId with
  | none =>
      rw [require, hresolve]
      exact .inl rfl
  | some id =>
      cases hget : s.modLoaded.get (String.ofList id) with
      | own module | inherited length =>
          left
          rw [require, hresolve]
          simp only [hget]
      | undefined =>
          rw [require_of_undefined hresolve hget]
          exact .inr ⟨id, rfl, hget, rfl⟩

theorem own_registered (s : Loader α β) (id : List Char) (key : String) :
    (s.registered id).modLoaded.own[key]? =
      if String.ofList id = key then some s.modules.length else s.modLoaded.own[key]? :=
  JsObject.own_put _ _ _ _

theorem step_cases {s s' : Loader α β} {e : LoaderEvent α β}
    (hstep : s.step compiles e = some s') :
    (∃ contents fileUtils, s' = { s with contents := contents, fileUtils := fileUtils } ∧
      (fileUtils = s.fileUtils ∨
        ∃ call, e = .fileUtils call ∧ fileUtils = s.fileUtils.next s.contents.files call)) ∨
    (∃ modId reqId id, e = .require modId reqId ∧ resolveModuleId reqId modId = some id ∧
      s.modLoaded.get (String.ofList id) = .undefined ∧ s' = (s.load compiles id).1) ∨
    (∃ module exports, e = .assign module exports ∧
      s' = { s with modules := s.modules.modify module fun m => { m with exports := exports } }) ∨
    (∃ frame frames, s.frames = frame :: frames ∧ s' = { s with frames := frames }) ∨
    (∃ frame frames, s.frames = frame :: frames ∧
      s' = { s with
        modLoaded := s.modLoaded.delete (String.ofList frame.id)
        frames := frames }) := by
  cases e with
  | require modId reqId =>
      obtain rfl := Option.some.inj hstep
      rcases s.require_cases modId reqId with heq | ⟨id, hresolve, hget, heq⟩
      · exact .inl ⟨s.contents, s.fileUtils, heq, .inl rfl⟩
      · exact .inr (.inl ⟨modId, reqId, id, rfl, hresolve, hget, heq⟩)
  | assign module exports =>
      rw [step, Option.ite_none_right_eq_some] at hstep
      exact .inr (.inr (.inl ⟨module, exports, rfl, (Option.some.inj hstep.2).symm⟩))
  | returns =>
      cases hframes : s.frames with
      | nil =>
          rw [step, hframes] at hstep
          cases hstep
      | cons frame frames =>
          rw [step, hframes] at hstep
          exact .inr (.inr (.inr (.inl ⟨frame, frames, rfl, (Option.some.inj hstep).symm⟩)))
  | throws =>
      cases hframes : s.frames with
      | nil =>
          rw [step, hframes] at hstep
          cases hstep
      | cons frame frames =>
          rw [step, hframes] at hstep
          exact .inr (.inr (.inr (.inr ⟨frame, frames, rfl, (Option.some.inj hstep).symm⟩)))
  | fileUtils call =>
      exact .inl ⟨s.contents, _, (Option.some.inj hstep).symm, .inr ⟨call, rfl, rfl⟩⟩
  | contents contents =>
      exact .inl ⟨contents, s.fileUtils, (Option.some.inj hstep).symm, .inl rfl⟩

/-- What is entered is not inherited and has a table; the modules that are being loaded are
different ones, each entered with its own table. -/
structure Consistent (s : Loader α β) : Prop where
  table : ∀ key module, s.modLoaded.own[key]? = some module →
    inherited key = none ∧ module < s.modules.length
  ids : (s.frames.map Frame.id).Nodup
  running : ∀ frame ∈ s.frames, s.modLoaded.own[String.ofList frame.id]? = some frame.module

theorem consistent_initial (contents : Contents α) :
    Consistent (initial contents : Loader α β) := by
  refine ⟨fun key module h => ?_, List.nodup_nil, fun _ h => absurd h List.not_mem_nil⟩
  change (∅ : Std.ExtTreeMap String ℕ)[key]? = some module at h
  rw [Std.ExtTreeMap.getElem?_empty] at h
  cases h

theorem ne_of_get_undefined {s : Loader α β} {id id' : List Char} {module : ℕ}
    (hown : s.modLoaded.own[String.ofList id]? = some module)
    (hget : s.modLoaded.get (String.ofList id') = .undefined) : id' ≠ id := by
  rintro rfl
  rw [JsObject.get_of_own hown] at hget
  cases hget

theorem length_registered (s : Loader α β) (id : List Char) :
    (s.registered id).modules.length = s.modules.length + 1 :=
  List.length_append

theorem Consistent.registered {s : Loader α β} (h : s.Consistent) {id : List Char}
    (hget : s.modLoaded.get (String.ofList id) = .undefined) : (s.registered id).Consistent := by
  obtain ⟨hown, hinherited⟩ := JsObject.get_eq_undefined_iff.mp hget
  refine ⟨fun key module hkey => ?_, h.ids, fun frame hframe => ?_⟩
  · rw [length_registered]
    rw [own_registered] at hkey
    split_ifs at hkey with heq
    · rw [← heq, ← Option.some.inj hkey]
      exact ⟨hinherited, Nat.lt_succ_self _⟩
    · obtain ⟨hnone, hlt⟩ := h.table key module hkey
      exact ⟨hnone, Nat.lt_succ_of_lt hlt⟩
  · have hrunning := h.running frame hframe
    rw [own_registered, if_neg, hrunning]
    intro heq
    rw [heq, hrunning] at hown
    cases hown

theorem Consistent.load {s : Loader α β} (h : s.Consistent) {id : List Char}
    (hget : s.modLoaded.get (String.ofList id) = .undefined) :
    (s.load compiles id).1.Consistent := by
  have hregistered := h.registered hget
  rcases s.load_cases id with heq | heq
  · rw [heq]
    exact hregistered
  · rw [heq]
    have hnew : id ∉ s.frames.map Frame.id := by
      intro hmem
      obtain ⟨frame, hframe, rfl⟩ := List.mem_map.mp hmem
      exact ne_of_get_undefined (h.running frame hframe) hget rfl
    refine ⟨hregistered.table, List.nodup_cons.mpr ⟨hnew, h.ids⟩, ?_⟩
    refine List.forall_mem_cons.mpr ⟨?_, hregistered.running⟩
    exact (own_registered s id _).trans (if_pos rfl)

theorem Consistent.step (s : Loader α β) (e : LoaderEvent α β) (s' : Loader α β)
    (h : s.Consistent) (hstep : s.step compiles e = some s') : s'.Consistent := by
  obtain ⟨contents, fileUtils, rfl, -⟩ | ⟨modId, reqId, id, -, -, hget, rfl⟩ |
    ⟨module, exports, -, rfl⟩ | ⟨frame, frames, hframes, rfl⟩ |
    ⟨frame, frames, hframes, rfl⟩ := step_cases hstep
  · exact ⟨h.table, h.ids, h.running⟩
  · exact h.load hget
  · refine ⟨?_, h.ids, h.running⟩
    rw [List.length_modify]
    exact h.table
  · obtain ⟨htable, hids, hrunning⟩ := h
    rw [hframes] at hids hrunning
    exact ⟨htable, (List.nodup_cons.mp hids).2, (List.forall_mem_cons.mp hrunning).2⟩
  · obtain ⟨htable, hids, hrunning⟩ := h
    rw [hframes] at hids hrunning
    obtain ⟨hnotMem, hrest⟩ := List.nodup_cons.mp hids
    refine ⟨fun key module hkey => ?_, hrest, fun f hf => ?_⟩
    · rw [JsObject.own_delete] at hkey
      split_ifs at hkey
      exact htable key module hkey
    · rw [JsObject.own_delete, if_neg, hrunning f (List.mem_cons_of_mem _ hf)]
      intro heq
      rw [String.ofList_injective heq] at hnotMem
      exact hnotMem (List.mem_map_of_mem hf)

theorem consistent_of_run {contents : Contents α} {es : List (LoaderEvent α β)} {s : Loader α β}
    (hrun : run (step compiles) (initial contents) es = some s) : s.Consistent :=
  run_invariant Consistent.step (consistent_initial contents) hrun

/-- The module is entered with its table, and its function is not being called. -/
def Settled (id : List Char) (module : ℕ) (s : Loader α β) : Prop :=
  s.modLoaded.own[String.ofList id]? = some module ∧ ∀ frame ∈ s.frames, frame.id ≠ id

theorem Settled.load {s : Loader α β} {id id' : List Char} {module : ℕ} (h : Settled id module s)
    (hne : id' ≠ id) : Settled id module (s.load compiles id').1 := by
  have hkey : String.ofList id' ≠ String.ofList id := fun heq => hne (String.ofList_injective heq)
  have hown : (s.registered id').modLoaded.own[String.ofList id]? = some module := by
    rw [own_registered, if_neg hkey]
    exact h.1
  rcases s.load_cases id' with heq | heq
  · rw [heq]
    exact ⟨hown, h.2⟩
  · rw [heq]
    exact ⟨hown, List.forall_mem_cons.mpr ⟨hne, h.2⟩⟩

theorem Settled.step {id : List Char} {module : ℕ} (s : Loader α β) (e : LoaderEvent α β)
    (s' : Loader α β) (h : Settled id module s) (hstep : s.step compiles e = some s') :
    Settled id module s' := by
  obtain ⟨contents, fileUtils, rfl, -⟩ | ⟨modId, reqId, id', -, -, hget, rfl⟩ |
    ⟨module', exports, -, rfl⟩ | ⟨frame, frames, hframes, rfl⟩ |
    ⟨frame, frames, hframes, rfl⟩ := step_cases hstep
  · exact h
  · exact h.load (ne_of_get_undefined h.1 hget)
  · exact h
  · rw [Settled, hframes] at h
    exact ⟨h.1, (List.forall_mem_cons.mp h.2).2⟩
  · rw [Settled, hframes] at h
    obtain ⟨hne, hidle⟩ := List.forall_mem_cons.mp h.2
    refine ⟨?_, hidle⟩
    rw [JsObject.own_delete, if_neg fun heq => hne (String.ofList_injective heq)]
    exact h.1

def Exporting (module : ℕ) (exports : Exports β) (s : Loader α β) : Prop :=
  s.modules[module]?.map Module.exports = some exports

theorem Exporting.exportsOf_eq {s : Loader α β} {module : ℕ} {exports : Exports β}
    (h : Exporting module exports s) : s.exportsOf module = exports := by
  rw [exportsOf, show s.modules[module]?.map Module.exports = some exports from h,
    Option.getD_some]

theorem exporting_of_lt {s : Loader α β} {module : ℕ} (h : module < s.modules.length) :
    Exporting module (s.exportsOf module) s := by
  rw [Exporting, exportsOf, List.getElem?_eq_getElem h]
  rfl

theorem Exporting.registered {s : Loader α β} {module : ℕ} {exports : Exports β}
    (h : Exporting module exports s) (id : List Char) :
    Exporting module exports (s.registered id) := by
  obtain ⟨m, hm, -⟩ := Option.map_eq_some_iff.mp h
  have hlt : module < s.modules.length := (List.getElem?_eq_some_iff.mp hm).1
  rw [Exporting, Loader.registered, List.getElem?_append_left hlt]
  exact h

/-- The exports only change when they are assigned. -/
theorem Exporting.step {module : ℕ} {exports : Exports β} (s : Loader α β) (e : LoaderEvent α β)
    (s' : Loader α β) (h : Exporting module exports s) (hne : ∀ value, e ≠ .assign module value)
    (hstep : s.step compiles e = some s') : Exporting module exports s' := by
  obtain ⟨contents, fileUtils, rfl, -⟩ | ⟨modId, reqId, id, -, -, -, rfl⟩ |
    ⟨module', value, rfl, rfl⟩ | ⟨frame, frames, -, rfl⟩ | ⟨frame, frames, -, rfl⟩ :=
    step_cases hstep
  · exact h
  · rcases s.load_cases id with heq | heq
    · rw [heq]
      exact h.registered id
    · rw [heq]
      exact h.registered id
  · have hother : module' ≠ module := by
      rintro rfl
      exact hne value rfl
    rw [Exporting, List.getElem?_modify_ne _ _ hother]
    exact h
  · exact h
  · exact h

theorem exportsOf_of_run {s s' : Loader α β} {module : ℕ} (hlt : module < s.modules.length)
    {es : List (LoaderEvent α β)} (hes : ∀ value, .assign module value ∉ es)
    (hrun : run (step compiles) s es = some s') : s'.exportsOf module = s.exportsOf module := by
  have hne : ∀ e ∈ es, ∀ value, e ≠ .assign module value := by
    rintro e he value rfl
    exact hes value he
  exact (run_invariant_along Exporting.step (exporting_of_lt hlt)
    (along_of_forall_mem hne s) hrun).exportsOf_eq

/-- A module that has been entered and is not being loaded keeps its table for good: whatever
the scripts do and however the files change, a request for it, from anywhere, returns the
`exports` of that table and does nothing else. These are the exports that the module has ended
with unless they are assigned later. -/
theorem require_settled {contents : Contents α} {es fs : List (LoaderEvent α β)}
    {s s' : Loader α β} (hrun : run (step compiles) (initial contents) es = some s)
    {id : List Char} {module : ℕ} (hown : s.modLoaded.own[String.ofList id]? = some module)
    (hidle : ∀ frame ∈ s.frames, frame.id ≠ id)
    (hlater : run (step compiles) s fs = some s') :
    (∀ modId reqId, resolveModuleId reqId modId = some id →
      s'.require compiles modId reqId = (s', .returned (s'.exportsOf module))) ∧
      ((∀ value, .assign module value ∉ fs) →
        s'.exportsOf module = s.exportsOf module) := by
  have hsettled : Settled id module s' := run_invariant Settled.step ⟨hown, hidle⟩ hlater
  refine ⟨fun modId reqId hresolve => require_of_own hresolve hsettled.1, fun hfs => ?_⟩
  exact exportsOf_of_run ((consistent_of_run hrun).table _ _ hown).2 hfs hlater

/-- A package with the module `main`, whose text compiles. -/
def mainOnly : Contents Bool where
  archive path := if path = "assets/main.js" then some true else none
  disk _ := none

/-- The module `main` assigns its exports and returns. Then its file goes, and another module
is requested. -/
theorem require_settled_main :
    ∃ s s' : Loader Bool String,
      run (step id) (initial mainOnly)
        [.require none "main".toList, .assign 0 (.other "main"), .returns] = some s ∧
      run (step id) s
        [.contents ⟨fun _ => none, fun _ => none⟩, .require none "lib".toList] = some s' ∧
      s'.require id (some "lib".toList) "./main".toList = (s', .returned (.other "main")) := by
  have hresolve : resolveModuleId "./main".toList (some "lib".toList) = some "main".toList := by
    decide
  have hown : ((run (step id) (initial mainOnly : Loader Bool String)
      [.require none "main".toList, .assign 0 (.other "main"), .returns]).get
        (by decide)).modLoaded.own["main"]? = some 0 := by
    decide
  have hlater := (Option.some_get (x := run (step id) ((run (step id)
    (initial mainOnly : Loader Bool String) [.require none "main".toList,
      .assign 0 (.other "main"), .returns]).get (by decide))
        [.contents ⟨fun _ => none, fun _ => none⟩, .require none "lib".toList])
    (by decide)).symm
  have hsettled := require_settled (Option.some_get (by decide)).symm hown (by decide) hlater
  refine ⟨_, _, (Option.some_get (by decide)).symm, hlater, ?_⟩
  rw [hsettled.1 _ _ hresolve, hsettled.2 (by simp)]
  rfl

/-- However the requests are nested, a module is not loaded again while it is being loaded: the
modules that are being loaded at one time are different, and a request for one of them
returns what it exports so far. -/
theorem require_running {contents : Contents α} {es : List (LoaderEvent α β)} {s : Loader α β}
    (hrun : run (step compiles) (initial contents) es = some s) :
    (s.frames.map Frame.id).Nodup ∧
      ∀ frame ∈ s.frames, ∀ modId reqId, resolveModuleId reqId modId = some frame.id →
        s.require compiles modId reqId = (s, .returned (s.exportsOf frame.module)) := by
  have h := consistent_of_run hrun
  exact ⟨h.ids, fun frame hframe _ _ hresolve =>
    require_of_own hresolve (h.running frame hframe)⟩

/-- While `main` is being loaded, it requests itself. -/
theorem require_running_main :
    ∃ s : Loader Bool Unit,
      run (step id) (initial mainOnly) [.require none "main".toList] = some s ∧
        ⟨"main".toList, 0⟩ ∈ s.frames ∧
          s.require id (some "main".toList) "./main".toList = (s, .returned (s.exportsOf 0)) := by
  have hmem : ⟨"main".toList, 0⟩ ∈
      ((run (step id) (initial mainOnly : Loader Bool Unit) [.require none "main".toList]).get
        (by decide)).frames := by
    decide
  exact ⟨_, (Option.some_get (by decide)).symm, hmem,
    (require_running (Option.some_get (by decide)).symm).2 _ hmem _ _ (by decide)⟩

/-- The module is not entered and can be. -/
def Absent (id : List Char) (s : Loader α β) : Prop :=
  s.modLoaded.get (String.ofList id) = .undefined

theorem absent_iff {id : List Char} {s : Loader α β} :
    Absent id s ↔
      s.modLoaded.own[String.ofList id]? = none ∧ inherited (String.ofList id) = none :=
  JsObject.get_eq_undefined_iff

theorem Absent.step {id : List Char} (s : Loader α β) (e : LoaderEvent α β) (s' : Loader α β)
    (h : Absent id s)
    (he : ∀ modId reqId, e = .require modId reqId → resolveModuleId reqId modId ≠ some id)
    (hstep : s.step compiles e = some s') : Absent id s' := by
  obtain ⟨contents, fileUtils, rfl, -⟩ | ⟨modId, reqId, id', rfl, hresolve, -, rfl⟩ |
    ⟨module, exports, -, rfl⟩ | ⟨frame, frames, -, rfl⟩ | ⟨frame, frames, -, rfl⟩ :=
    step_cases hstep
  · exact h
  · have hne : String.ofList id' ≠ String.ofList id := by
      intro heq
      rw [String.ofList_injective heq] at hresolve
      exact he modId reqId rfl hresolve
    have hown : (s.registered id').modLoaded.own[String.ofList id]? = none := by
      rw [own_registered, if_neg hne]
      exact (absent_iff.mp h).1
    rcases s.load_cases id' with heq | heq
    · rw [heq]
      exact absent_iff.mpr ⟨hown, (absent_iff.mp h).2⟩
    · rw [heq]
      exact absent_iff.mpr ⟨hown, (absent_iff.mp h).2⟩
  · exact h
  · exact h
  · refine absent_iff.mpr ⟨?_, (absent_iff.mp h).2⟩
    rw [JsObject.own_delete]
    split_ifs
    · rfl
    · exact (absent_iff.mp h).1

/-- A module whose function throws is forgotten, and it alone. Until a request for it comes,
whatever else is requested, returns or throws, it stays forgotten, and that request runs its
code again, if there is a file that compiles. -/
theorem require_after_throws {contents : Contents α} {es fs : List (LoaderEvent α β)}
    {s t s' : Loader α β} {frame : Frame} {frames : List Frame}
    (hrun : run (step compiles) (initial contents) es = some s)
    (hframes : s.frames = frame :: frames) (hthrows : s.step compiles .throws = some t)
    (hlater : run (step compiles) t fs = some s')
    (hother : ∀ modId reqId, .require modId reqId ∈ fs →
      resolveModuleId reqId modId ≠ some frame.id) :
    (∀ id, id ≠ frame.id →
      t.modLoaded.get (String.ofList id) = s.modLoaded.get (String.ofList id)) ∧
    s'.modLoaded.get (String.ofList frame.id) = .undefined ∧
    ∀ text, (s'.fileUtils.doGetFileData s'.contents (moduleFile frame.id)).1 = some text →
      compiles text = true → ∀ modId reqId, resolveModuleId reqId modId = some frame.id →
        (s'.require compiles modId reqId).2 = .called ∧
          (s'.require compiles modId reqId).1.frames =
            ⟨frame.id, s'.modules.length⟩ :: s'.frames := by
  have h := consistent_of_run hrun
  have hrunning : s.modLoaded.own[String.ofList frame.id]? = some frame.module :=
    h.running frame (hframes ▸ List.mem_cons_self)
  have hloaded : t.modLoaded = s.modLoaded.delete (String.ofList frame.id) := by
    rw [Loader.step, hframes] at hthrows
    rw [← Option.some.inj hthrows]
  have habsent : Absent frame.id t := by
    refine absent_iff.mpr ⟨?_, (h.table _ _ hrunning).1⟩
    rw [hloaded, JsObject.own_delete, if_pos rfl]
  have hlast : Absent frame.id s' := by
    refine run_invariant_along Absent.step habsent (along_of_forall_mem ?_ t) hlater
    rintro e he modId reqId rfl
    exact hother modId reqId he
  refine ⟨fun id hne => ?_, hlast, fun text htext hcompiles modId reqId hresolve => ?_⟩
  · have hkey : String.ofList frame.id ≠ String.ofList id := fun heq =>
      hne (String.ofList_injective heq).symm
    rw [JsObject.get, JsObject.get, hloaded, JsObject.own_delete, if_neg hkey]
  · rw [require_of_undefined hresolve hlast, load, htext]
    simp only [hcompiles, if_true, and_self]

/-- A package with the modules `main` and `lib`. -/
def mainAndLib : Contents Bool where
  archive path := if path = "assets/main.js" ∨ path = "assets/lib.js" then some true else none
  disk _ := none

/-- The function of `lib` throws within `main`, which throws as well, is requested again and
requests `lib` again. -/
theorem require_after_throws_lib :
    ∃ s t s' : Loader Bool Unit,
      run (step id) (initial mainAndLib)
        [.require none "main".toList, .require (some "main".toList) "./lib".toList] = some s ∧
      s.step id .throws = some t ∧
      run (step id) t [.throws, .require none "main".toList] = some s' ∧
      (s'.require id (some "main".toList) "./lib".toList).2 = .called ∧
      (s'.require id (some "main".toList) "./lib".toList).1.frames =
        [⟨"lib".toList, 3⟩, ⟨"main".toList, 2⟩] := by
  have hframes : ((run (step id) (initial mainAndLib : Loader Bool Unit)
      [.require none "main".toList, .require (some "main".toList) "./lib".toList]).get
        (by decide)).frames = ⟨"lib".toList, 1⟩ :: [⟨"main".toList, 0⟩] := by
    decide
  have hother : ∀ modId reqId, LoaderEvent.require modId reqId ∈
      ([.throws, .require none "main".toList] : List (LoaderEvent Bool Unit)) →
      resolveModuleId reqId modId ≠ some "lib".toList := by
    intro modId reqId hmem
    rcases List.mem_cons.mp hmem with hmem | hmem
    · cases hmem
    · cases List.mem_singleton.mp hmem
      decide
  have hagain := (require_after_throws (Option.some_get (by decide)).symm hframes
    (Option.some_get (by decide)).symm (Option.some_get (by decide)).symm hother).2.2 true
    (by decide) rfl (some "main".toList) "./lib".toList (by decide)
  exact ⟨_, _, _, (Option.some_get (by decide)).symm, (Option.some_get (by decide)).symm,
    (Option.some_get (by decide)).symm, hagain.1, hagain.2.trans (by decide)⟩

/-- A module whose file is missing or does not compile at its first request is entered all the
same. No code runs; the request returns the fresh `exports` where the file is missing, and
throws where the text does not compile. Later requests do nothing but return the `exports` of
the table, also when the file is there in the meantime, and these are the fresh ones unless they
are assigned. -/
theorem require_missing {contents : Contents α} {es : List (LoaderEvent α β)} {s : Loader α β}
    (hrun : run (step compiles) (initial contents) es = some s) {modId : Option (List Char)}
    {reqId id : List Char} (hresolve : resolveModuleId reqId modId = some id)
    (hget : s.modLoaded.get (String.ofList id) = .undefined)
    (htext : (s.fileUtils.doGetFileData s.contents (moduleFile id)).1.all fun text =>
      !compiles text) :
    (s.require compiles modId reqId).2 =
      (if (s.fileUtils.doGetFileData s.contents (moduleFile id)).1.isSome then .syntaxError
        else .returned (.fresh s.modules.length)) ∧
    (s.require compiles modId reqId).1.frames = s.frames ∧
    (s.require compiles modId reqId).1.modLoaded.own[String.ofList id]? =
      some s.modules.length ∧
    ∀ fs s', run (step compiles) (s.require compiles modId reqId).1 fs = some s' →
      (∀ modId' reqId', resolveModuleId reqId' modId' = some id →
        s'.require compiles modId' reqId' = (s', .returned (s'.exportsOf s.modules.length))) ∧
      ((∀ value, .assign s.modules.length value ∉ fs) →
        s'.exportsOf s.modules.length = .fresh s.modules.length) := by
  have h := consistent_of_run hrun
  have hload : s.load compiles id =
      (s.registered id, if (s.fileUtils.doGetFileData s.contents (moduleFile id)).1.isSome then
        .syntaxError else .returned (.fresh s.modules.length)) := by
    rw [load]
    cases hdata : (s.fileUtils.doGetFileData s.contents (moduleFile id)).1 with
    | none => rfl
    | some text =>
        rw [hdata, Option.all_some, Bool.not_eq_true'] at htext
        simp only [htext, Bool.false_eq_true, if_false, Option.isSome_some, if_true]
  have hown : (s.registered id).modLoaded.own[String.ofList id]? = some s.modules.length :=
    (own_registered s id _).trans (if_pos rfl)
  rw [require_of_undefined hresolve hget, hload]
  refine ⟨rfl, rfl, hown, fun fs s' hlater => ?_⟩
  have hidle : ∀ frame ∈ s.frames, frame.id ≠ id := fun frame hframe =>
    (ne_of_get_undefined (h.running frame hframe) hget).symm
  have hsettled : Settled id s.modules.length s' :=
    run_invariant Settled.step ⟨hown, hidle⟩ hlater
  refine ⟨fun _ _ hresolve' => require_of_own hresolve' hsettled.1, fun hfs => ?_⟩
  have hlt : s.modules.length < (s.registered id).modules.length := by
    rw [length_registered]
    exact Nat.lt_succ_self _
  rw [exportsOf_of_run hlt hfs hlater, exportsOf, Loader.registered, List.getElem?_concat_length]
  rfl

/-- The module `main` is requested before its file is there. -/
theorem require_missing_main :
    ∃ s' : Loader Bool Unit,
      run (step id) ((initial ⟨fun _ => none, fun _ => none⟩).require id none "main".toList).1
        [.contents mainOnly, .require none "lib".toList] = some s' ∧
      (s'.fileUtils.doGetFileData s'.contents "main.js").1 = some true ∧
      s'.require id (some "lib".toList) "./main".toList = (s', .returned (.fresh 0)) := by
  have hnone : run (step id) (initial ⟨fun _ => none, fun _ => none⟩ : Loader Bool Unit) [] =
      some (initial ⟨fun _ => none, fun _ => none⟩) :=
    rfl
  have hresolve : resolveModuleId "main".toList none = some "main".toList := by decide
  obtain ⟨-, -, -, hlater⟩ := require_missing hnone hresolve (by decide) (by decide)
  obtain ⟨hrequire, hexports⟩ := hlater [.contents mainOnly, .require none "lib".toList] _
    (Option.some_get (by decide)).symm
  refine ⟨_, (Option.some_get (by decide)).symm, by decide, ?_⟩
  rw [hrequire _ _ (by decide), hexports (by simp)]
  rfl

def directories : LoaderEvent α β → List String
  | .fileUtils call => CCFileUtils.directories call
  | _ => []

def Below (dir path : String) : Prop :=
  dir.toList.getLast? = some '/' ∧ ∃ id, Canonical id ∧ path = dir ++ moduleFile id

/-- The paths that were opened are below directories of `D`. -/
structure Confined (D : String → Prop) (s : Loader α β) : Prop where
  within : s.fileUtils.Within D
  opened : ∀ path ∈ s.opened, ∃ dir, D dir ∧ ∃ id, Canonical id ∧ path = dir ++ moduleFile id

theorem Confined.registered {D : String → Prop} (hroot : D "assets/") {s : Loader α β}
    (h : s.Confined D) {id : List Char} (hid : Canonical id) : (s.registered id).Confined D := by
  constructor
  · have hdata : (s.registered id).fileUtils =
        (s.fileUtils.fullPathForFilename s.contents.files (moduleFile id)).2 := by
      rw [Loader.registered, CCFileUtils.doGetFileData, if_neg (moduleFile_ne_empty id)]
    rw [hdata]
    exact (h.within.fullPathForFilename hroot s.contents.files (moduleFile id)).2
  · intro path hmem
    rcases List.mem_append.mp hmem with hmem | hmem
    · exact h.opened path hmem
    · rcases h.within.readPath hroot hid.head?_ne_slash (Option.mem_toList.mp hmem) with
        ⟨rfl, hname⟩ | ⟨dir, hdir, rfl⟩
      · exact ⟨_, hroot, hid.below_root hname⟩
      · exact ⟨dir, hdir, id, hid, rfl⟩

theorem Confined.step {D : String → Prop} (hroot : D "assets/") (s : Loader α β)
    (e : LoaderEvent α β) (s' : Loader α β) (h : s.Confined D)
    (hdirs : ∀ dir ∈ directories e, D dir) (hstep : s.step compiles e = some s') :
    s'.Confined D := by
  obtain ⟨contents, fileUtils, rfl, rfl | ⟨call, rfl, rfl⟩⟩ |
    ⟨modId, reqId, id, -, hresolve, -, rfl⟩ | ⟨module, exports, -, rfl⟩ |
    ⟨frame, frames, -, rfl⟩ | ⟨frame, frames, -, rfl⟩ := step_cases hstep
  · exact ⟨h.within, h.opened⟩
  · exact ⟨h.within.next hroot _ hdirs, h.opened⟩
  · have hregistered := h.registered hroot (canonical_of_resolveModuleId hresolve).1
    rcases s.load_cases id with heq | heq
    · rw [heq]
      exact hregistered
    · rw [heq]
      exact ⟨hregistered.within, hregistered.opened⟩
  · exact ⟨h.within, h.opened⟩
  · exact ⟨h.within, h.opened⟩
  · exact ⟨h.within, h.opened⟩

/-- As long as the search paths end in a slash, every module is read from the file of a canonical
identifier below the default root or below a directory that was given as a search path. -/
theorem opened_confined {contents : Contents α} {es : List (LoaderEvent α β)} {s : Loader α β}
    (hslash : ∀ dir ∈ es.flatMap directories, dir.toList.getLast? = some '/')
    (hrun : run (step compiles) (initial contents) es = some s) :
    ∀ path ∈ s.opened, ∃ dir ∈ "assets/" :: es.flatMap directories, Below dir path := by
  have hroot : "assets/" ∈ "assets/" :: es.flatMap directories := List.mem_cons_self
  have hinitial : (initial contents : Loader α β).Confined
      (· ∈ "assets/" :: es.flatMap directories) :=
    ⟨CCFileUtils.within_init hroot, fun _ h => absurd h List.not_mem_nil⟩
  have hdirs : ∀ e ∈ es, ∀ dir ∈ directories e, dir ∈ "assets/" :: es.flatMap directories :=
    fun e he dir hdir => List.mem_cons_of_mem _ (List.mem_flatMap.mpr ⟨e, he, hdir⟩)
  have hconfined := run_invariant_along (Confined.step hroot) hinitial
    (along_of_forall_mem hdirs _) hrun
  intro path hpath
  obtain ⟨dir, hdir, id, hid, rfl⟩ := hconfined.opened path hpath
  refine ⟨dir, hdir, ?_, id, hid, rfl⟩
  rcases List.mem_cons.mp hdir with rfl | hdir
  · decide
  · exact hslash dir hdir

/-- With the search path `scripts/`, the request for `main` opens one file, and a request for a
file that lies beside the default root opens none. -/
theorem opened_confined_main :
    ∃ s : Loader Bool Unit,
      run (step id) (initial ⟨fun path => if path = "assets/scripts/main.js" ∨ path = "lib.js"
          then some true else none, fun _ => none⟩)
        [.fileUtils (.addSearchPath "scripts/"), .require none "main".toList,
          .require none "lib".toList] = some s ∧
      s.opened = ["assets/scripts/main.js"] ∧
      ∀ path ∈ s.opened, ∃ dir ∈ ["assets/", "assets/scripts/"], Below dir path :=
  ⟨_, (Option.some_get (by decide)).symm, by decide,
    opened_confined (by decide) (Option.some_get (by decide)).symm⟩

end Loader

end Scripts

end UnifyFramework
