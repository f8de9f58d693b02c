import Mathlib.Data.List.Dedup
import Mathlib.Data.List.DropRight
import Mathlib.Data.List.TakeWhile
import Std.Data.ExtTreeMap

/-!
# Uploads on Android

`ImageHttpUtils.uploadFiles` reads the paths and the form fields of an upload from a JSON text
and puts them into two hash maps. `postFiles` fills the `RequestParams` of the request from the
maps: `getFileParams` puts the files until the first one that does not exist, in whatever order
the map is iterated, and `setParams` puts the form fields back into the map that they come from
instead of into the request. So a request never has a form field, and a missing file can cost
all of the other ones.

`RequestParams` belongs to the HTTP library. The results hold for every class that has its
methods and behaves as assumed here.
-/

namespace UnifyFramework

namespace Network

/-- JSON as `JSONObject` reads it, with the names of an object as they follow in the text. The
`text` is what `String.valueOf` makes of a value that is not a string. -/
inductive Json
  | string (value : String)
  | array (elements : List Json) (text : String)
  | object (entries : List (String × Json)) (text : String)
  | other (text : String)

inductive JavaException
  | json
  | classCast
  | fileNotFound
  deriving DecidableEq

namespace Json

/-- The value of a name. Of a name that is repeated the last value counts. -/
def member? (json : Json) (name : String) : Option Json :=
  match json with
  | object entries _ => entries.reverse.lookup name
  | _ => none

def keys : Json → List String
  | object entries _ => (entries.map Prod.fst).dedup
  | _ => []

def toText : Json → String
  | string value => value
  | array _ text | object _ text | other text => text

def getJSONArray (json : Json) (name : String) : Except JavaException (List Json) :=
  match json.member? name with
  | some (array elements _) => .ok elements
  | _ => .error .json

def getJSONObject (json : Json) (name : String) : Except JavaException Json :=
  match json.member? name with
  | some (object entries text) => .ok (object entries text)
  | _ => .error .json

def getString (json : Json) (key : String) : Except JavaException String :=
  match json.member? key with
  | some value => .ok value.toText
  | none => .error .json

def getPath (image : Json) : Except JavaException String :=
  match image.member? "path" with
  | some (string path) => .ok path
  | some _ => .error .classCast
  | none => .error .json

end Json

abbrev StringMap := Std.ExtTreeMap String String

def putPath (fileMap : StringMap) (image : Json) : Except JavaException StringMap := do
  let filePath ← image.getPath
  pure (fileMap.insert filePath filePath)

def putParam (params : Json) (paramMap : StringMap) (key : String) :
    Except JavaException StringMap := do
  let value ← params.getString key
  pure (paramMap.insert key value)

/-- `ImageHttpUtils.uploadFiles` up to the call of `postFiles`, with the two maps of the call. -/
def uploadFiles (imagesjson : Json) : Except JavaException (StringMap × StringMap) := do
  let images ← imagesjson.getJSONArray "files"
  let params ← imagesjson.getJSONObject "params"
  let fileMap ← images.foldlM putPath ∅
  let paramMap ← params.keys.foldlM (putParam params) ∅
  pure (fileMap, paramMap)

/-- What the request depends on of the file system: for the path of a `File`, whether it exists,
the answer of `MimetypesFileTypeMap` and the path as `File` writes it. -/
structure FileSystem where
  fileExists : String → Bool
  getContentType : String → String
  getPath : String → String

def octetStream : String := "application/octet-stream"

/-- `path.split("\\.")`. Empty parts at the end are dropped. -/
def splitDots (path : String) : List String :=
  if '.' ∈ path.toList then
    ((path.toList.splitOn '.').rdropWhile List.isEmpty).map String.ofList
  else [path]

def toLowerCase (s : String) : String := String.ofList (s.toList.map Char.toLower)

/-- `ImageHttpUtils.getFileType`. Without a last part the exception is caught. -/
def getFileType (fs : FileSystem) (file : String) : String :=
  if toLowerCase (fs.getContentType file) = octetStream then
    match (splitDots (fs.getPath file)).getLast? with
    | some format =>
        if toLowerCase format = "amr" then "audio/amr"
        else if toLowerCase format = "mp3" then "audio/mpeg"
        else octetStream
    | none => octetStream
  else octetStream

/-- The arguments of `put` for a file, behind the key. -/
structure FilePart where
  file : String
  contentType : String
  customFileName : String
  deriving DecidableEq

/-- A class with the methods of `RequestParams` that `getFileParams` calls, for objects of type
`ρ`, and what a request made from an object has under a key: the part of a file or the value of
a form field. It is assumed that a new object has nothing, that a file which exists can be put and
changes no other key, that the `put` of another file throws, and that the setters change neither
parts nor fields. -/
structure RequestParams (fs : FileSystem) (ρ : Type) where
  new : ρ
  put : ρ → String → FilePart → Except JavaException ρ
  setHttpEntityIsRepeatable : ρ → Bool → ρ
  setUseJsonStreamer : ρ → Bool → ρ
  filePart : ρ → String → Option FilePart
  formField : ρ → String → Option String
  filePart_new : ∀ key, filePart new key = none
  formField_new : ∀ key, formField new key = none
  put_of_exists : ∀ params key part, fs.fileExists part.file = true →
    ∃ params', put params key part = .ok params' ∧
      (∀ k, filePart params' k = if k = key then some part else filePart params k) ∧
      ∀ k, formField params' k = formField params k
  put_of_missing : ∀ params key part, fs.fileExists part.file = false →
    put params key part = .error .fileNotFound
  filePart_setters : ∀ params a b k,
    filePart (setUseJsonStreamer (setHttpEntityIsRepeatable params a) b) k = filePart params k
  formField_setters : ∀ params a b k,
    formField (setUseJsonStreamer (setHttpEntityIsRepeatable params a) b) k = formField params k

namespace RequestParams

variable {fs : FileSystem} {ρ : Type} (lib : RequestParams fs ρ)

/-- What `getFileParams` puts for an entry of the map. -/
def filePartOf (fs : FileSystem) (entry : String × String) : FilePart :=
  ⟨entry.2, getFileType fs entry.2, entry.1⟩

/-- The loop of `getFileParams` with its one handler around it. -/
def putFiles (params : ρ) : List (String × String) → ρ
  | [] => params
  | entry :: entries =>
      match lib.put params entry.1 (filePartOf fs entry) with
      | .ok params => putFiles params entries
      | .error _ => params

/-- `ImageHttpUtils.getFileParams`, for the entries in the order of their iteration. -/
def getFileParams (entries : List (String × String)) : ρ :=
  lib.setUseJsonStreamer (lib.setHttpEntityIsRepeatable (lib.putFiles lib.new entries) true) false

end RequestParams

/-- `ImageHttpUtils.setParams`, with the map as it is left. -/
def setParams {ρ : Type} (postParams : ρ) (params : StringMap)
    (entries : List (String × String)) : ρ × StringMap :=
  (postParams, entries.foldl (fun params entry => params.insert entry.1 entry.2) params)

/-- What `postFiles` hands to `executeUpload`, for the orders in which it iterates the maps. -/
def postFiles {fs : FileSystem} {ρ : Type} (lib : RequestParams fs ρ) (params : StringMap)
    (fileOrder paramOrder : List (String × String)) : ρ :=
  (setParams (lib.getFileParams fileOrder) params paramOrder).1

def Sends {fs : FileSystem} {ρ : Type} (lib : RequestParams fs ρ) (imagesjson : Json)
    (request : ρ) : Prop :=
  ∃ files params, uploadFiles imagesjson = .ok (files, params) ∧
    ∃ fileOrder paramOrder, fileOrder.Perm files.toList ∧ paramOrder.Perm params.toList ∧
      request = postFiles lib params fileOrder paramOrder

namespace Json

/-- The path that an element of `files` lists. -/
def path? (image : Json) : Option String := image.getPath.toOption

def listedPaths (json : Json) : List String :=
  ((json.getJSONArray "files").toOption.getD []).filterMap path?

/-- The keys of `params`, each with the text of its value. -/
def listedFields (json : Json) : List (String × String) :=
  match json.getJSONObject "params" with
  | .ok params => params.keys.filterMap fun key =>
      (params.getString key).toOption.map fun value => (key, value)
  | .error _ => []

def WellFormed (json : Json) : Prop :=
  (∃ images, json.getJSONArray "files" = .ok images ∧ ∀ image ∈ images, (path? image).isSome) ∧
    ∃ params, json.getJSONObject "params" = .ok params

end Json

/-- The request has a part for every listed file that exists, and a form field for every listed
field. -/
def Carries {fs : FileSystem} {ρ : Type} (lib : RequestParams fs ρ) (json : Json)
    (request : ρ) : Prop :=
  (∀ path ∈ json.listedPaths, fs.fileExists path = true →
    ((lib.filePart request path).map fun part => (part.file, part.customFileName)) =
      some (path, path)) ∧
  ∀ field ∈ json.listedFields, lib.formField request field.1 = some field.2

/-- When all entries of a loop of puts agree with `f`, the map has what `f` says at the keys that
were put. -/
theorem getElem?_foldl_put {γ β : Type} {key : γ → String} {value : γ → β}
    {f : String → Option β} {entries : List γ}
    (hf : ∀ entry ∈ entries, f (key entry) = some (value entry))
    (map : Std.ExtTreeMap String β) (k : String) :
    (entries.foldl (fun map entry => map.insert (key entry) (value entry)) map)[k]? =
      if k ∈ entries.map key then f k else map[k]? := by
  induction entries generalizing map with
  | nil => rfl
  | cons entry entries ih =>
      have hentry := hf entry List.mem_cons_self
      rw [List.foldl_cons, ih fun e he => hf e (List.mem_cons_of_mem _ he),
        Std.ExtTreeMap.getElem?_insert, List.map_cons]
      simp only [List.mem_cons, Std.LawfulEqCmp.compare_eq_iff_eq]
      grind

theorem Json.exists_getString {params : Json} {key : String} (hkey : key ∈ params.keys) :
    ∃ value, params.getString key = .ok value := by
  cases params with
  | object entries text =>
      obtain ⟨entry, hentry, rfl⟩ := List.mem_map.mp (List.mem_dedup.mp hkey)
      have hsome : (entries.reverse.lookup entry.1).isSome :=
        List.lookup_isSome_iff.mpr ⟨entry, List.mem_reverse.mpr hentry, BEq.rfl⟩
      obtain ⟨value, hvalue⟩ := Option.isSome_iff_exists.mp hsome
      exact ⟨value.toText, by simp only [getString, member?, hvalue]⟩
  | string | array | other => exact absurd hkey List.not_mem_nil

def fileMapOf (fileMap : StringMap) (paths : List String) : StringMap :=
  paths.foldl (fun fileMap path => fileMap.insert path path) fileMap

theorem mem_toList_fileMapOf {paths : List String} {entry : String × String} :
    entry ∈ (fileMapOf ∅ paths).toList ↔ entry.1 ∈ paths ∧ entry.2 = entry.1 := by
  rw [Std.ExtTreeMap.mem_toList_iff_getElem?_eq_some, fileMapOf,
    getElem?_foldl_put (f := some) fun _ _ => rfl, List.map_id']
  split_ifs with hmem
  · simp [hmem, eq_comm]
  · simp [hmem]

/-- The loop over the files ends without an exception exactly when every element has a path. -/
theorem foldlM_putPath_eq_ok_iff {fileMap fileMap' : StringMap} {images : List Json} :
    images.foldlM putPath fileMap = .ok fileMap' ↔
      (∀ image ∈ images, image.path?.isSome) ∧
        fileMapOf fileMap (images.filterMap Json.path?) = fileMap' := by
  induction images generalizing fileMap with
  | nil =>
      rw [List.foldlM_nil, List.filterMap_nil]
      simp [fileMapOf, pure, Except.pure]
  | cons image images ih =>
      rw [List.foldlM_cons]
      cases hpath : image.getPath with
      | error e => simp [putPath, Json.path?, hpath, bind, Except.bind, Except.toOption]
      | ok path =>
          have hput : putPath fileMap image = .ok (fileMap.insert path path) := by
            rw [putPath, hpath]
            rfl
          have hsome : image.path? = some path := by
            rw [Json.path?, hpath]
            rfl
          rw [hput, List.forall_mem_cons, List.filterMap_cons_some hsome, hsome,
            Option.isSome_some, eq_self, true_and]
          exact ih

/-- Every key of an object has a value, so that the loop over the parameters ends without an
exception. -/
theorem exists_foldlM_putParam (params : Json) (paramMap : StringMap) {keys : List String}
    (hkeys : ∀ key ∈ keys, key ∈ params.keys) :
    ∃ paramMap', keys.foldlM (putParam params) paramMap = .ok paramMap' := by
  induction keys generalizing paramMap with
  | nil => exact ⟨paramMap, rfl⟩
  | cons key keys ih =>
      obtain ⟨value, hvalue⟩ := Json.exists_getString (hkeys key List.mem_cons_self)
      obtain ⟨paramMap', hrest⟩ := ih (paramMap.insert key value)
        fun key hkey => hkeys key (List.mem_cons_of_mem _ hkey)
      refine ⟨paramMap', ?_⟩
      rw [List.foldlM_cons, putParam, hvalue]
      exact hrest

theorem exists_uploadFiles_iff {json : Json} {files : StringMap} :
    (∃ params, uploadFiles json = .ok (files, params)) ↔
      json.WellFormed ∧ fileMapOf ∅ json.listedPaths = files := by
  cases himages : json.getJSONArray "files" with
  | error e => simp [uploadFiles, Json.WellFormed, himages, bind, Except.bind]
  | ok images =>
      cases hparams : json.getJSONObject "params" with
      | error e => simp [uploadFiles, Json.WellFormed, himages, hparams, bind, Except.bind]
      | ok params =>
          obtain ⟨paramMap, hmap⟩ := exists_foldlM_putParam params ∅ fun key hkey => hkey
          have hlisted : json.listedPaths = images.filterMap Json.path? := by
            rw [Json.listedPaths, himages]
            rfl
          have hwell : json.WellFormed ↔ ∀ image ∈ images, image.path?.isSome := by
            simp [Json.WellFormed, himages, hparams]
          rw [hwell, hlisted, ← foldlM_putPath_eq_ok_iff]
          cases hfiles : images.foldlM putPath ∅ with
          | error e =>
              simp [uploadFiles, himages, hparams, hfiles, bind, Except.bind]
          | ok fileMap =>
              simp [uploadFiles, himages, hparams, hfiles, hmap, bind, Except.bind, pure,
                Except.pure]

namespace RequestParams

variable {fs : FileSystem} {ρ : Type} (lib : RequestParams fs ρ)

theorem filePart_putFiles {entries : List (String × String)}
    (hexists : ∀ entry ∈ entries, fs.fileExists entry.2 = true)
    (hself : ∀ entry ∈ entries, entry.2 = entry.1) (params : ρ) (k : String) :
    lib.filePart (lib.putFiles params entries) k =
      if k ∈ entries.map Prod.fst then some (filePartOf fs (k, k)) else lib.filePart params k := by
  induction entries generalizing params with
  | nil => rfl
  | cons entry entries ih =>
      obtain ⟨hentry, hexists⟩ := List.forall_mem_cons.mp hexists
      obtain ⟨hkey, hself⟩ := List.forall_mem_cons.mp hself
      obtain ⟨params', hput, hparts, -⟩ :=
        lib.put_of_exists params entry.1 (filePartOf fs entry) hentry
      simp only [putFiles, hput]
      simp only [ih hexists hself, hparts, List.map_cons, List.mem_cons]
      by_cases hk : k = entry.1
      · obtain ⟨key, path⟩ := entry
        cases hkey
        simp [hk]
      · rw [if_neg hk]
        exact if_congr (by rw [or_iff_right hk]) rfl rfl

theorem formField_putFiles (entries : List (String × String)) (params : ρ) (k : String) :
    lib.formField (lib.putFiles params entries) k = lib.formField params k := by
  induction entries generalizing params with
  | nil => rfl
  | cons entry entries ih =>
      cases hexists : fs.fileExists entry.2 with
      | false => simp only [putFiles, lib.put_of_missing params entry.1 (filePartOf fs entry) hexists]
      | true =>
          obtain ⟨params', hput, -, hfields⟩ :=
            lib.put_of_exists params entry.1 (filePartOf fs entry) hexists
          simp only [putFiles, hput]
          rw [ih, hfields]

end RequestParams

section Requests

variable {fs : FileSystem} {ρ : Type} {lib : RequestParams fs ρ}

theorem formField_postFiles (params : StringMap) (fileOrder paramOrder : List (String × String))
    (k : String) : lib.formField (postFiles lib params fileOrder paramOrder) k = none := by
  rw [postFiles, setParams, RequestParams.getFileParams, lib.formField_setters,
    lib.formField_putFiles, lib.formField_new]

theorem filePart_postFiles_of_forall {fileOrder : List (String × String)}
    (hexists : ∀ entry ∈ fileOrder, fs.fileExists entry.2 = true)
    (hself : ∀ entry ∈ fileOrder, entry.2 = entry.1) {path : String}
    (hpath : (path, path) ∈ fileOrder) (params : StringMap)
    (paramOrder : List (String × String)) :
    lib.filePart (postFiles lib params fileOrder paramOrder) path =
      some (RequestParams.filePartOf fs (path, path)) := by
  rw [postFiles, setParams, RequestParams.getFileParams, lib.filePart_setters,
    lib.filePart_putFiles hexists hself, if_pos (List.mem_map_of_mem hpath)]

/-- An order that begins with a missing file has no part at all. -/
theorem filePart_postFiles_of_missing {entry : String × String}
    (hmissing : fs.fileExists entry.2 = false) (fileOrder : List (String × String))
    (params : StringMap) (paramOrder : List (String × String)) (k : String) :
    lib.filePart (postFiles lib params (entry :: fileOrder) paramOrder) k = none := by
  have hput := lib.put_of_missing lib.new entry.1 (RequestParams.filePartOf fs entry) hmissing
  rw [postFiles, setParams, RequestParams.getFileParams, lib.filePart_setters,
    RequestParams.putFiles, hput]
  exact lib.filePart_new k

theorem sends_of_perm (lib : RequestParams fs ρ) {json : Json} (hwell : json.WellFormed)
    {fileOrder : List (String × String)}
    (horder : fileOrder.Perm (fileMapOf ∅ json.listedPaths).toList) :
    ∃ params paramOrder, Sends lib json (postFiles lib params fileOrder paramOrder) := by
  obtain ⟨params, hupload⟩ := exists_uploadFiles_iff.mpr ⟨hwell, rfl⟩
  exact ⟨params, params.toList, _, params, hupload, fileOrder, params.toList, horder, .rfl, rfl⟩

theorem Sends.exists_order {json : Json} {request : ρ} (h : Sends lib json request) :
    json.WellFormed ∧ ∃ params fileOrder paramOrder,
      (∀ entry, entry ∈ fileOrder ↔ entry.1 ∈ json.listedPaths ∧ entry.2 = entry.1) ∧
        request = postFiles lib params fileOrder paramOrder := by
  obtain ⟨files, params, hupload, fileOrder, paramOrder, hfiles, -, rfl⟩ := h
  obtain ⟨hwell, rfl⟩ := exists_uploadFiles_iff.mp ⟨params, hupload⟩
  exact ⟨hwell, params, fileOrder, paramOrder,
    fun _ => hfiles.mem_iff.trans mem_toList_fileMapOf, rfl⟩

theorem Sends.listedFields_eq_nil {json : Json} {request : ρ} (h : Sends lib json request)
    (hcarries : Carries lib json request) : json.listedFields = [] := by
  obtain ⟨-, params, fileOrder, paramOrder, -, rfl⟩ := h.exists_order
  refine List.eq_nil_iff_forall_not_mem.mpr fun field hfield => ?_
  have hvalue := hcarries.2 field hfield
  rw [formField_postFiles] at hvalue
  cases hvalue

/-- With one file missing there is a request without any part: the missing one may come first. -/
theorem exists_sends_without_parts (lib : RequestParams fs ρ) {json : Json}
    (hwell : json.WellFormed) {missing : String} (hlisted : missing ∈ json.listedPaths)
    (hmissing : fs.fileExists missing = false) :
    ∃ request, Sends lib json request ∧ ∀ k, lib.filePart request k = none := by
  have hfirst : (missing, missing) ∈ (fileMapOf ∅ json.listedPaths).toList :=
    mem_toList_fileMapOf.mpr ⟨hlisted, rfl⟩
  obtain ⟨params, paramOrder, hsends⟩ :=
    sends_of_perm lib hwell (List.perm_cons_erase hfirst).symm
  exact ⟨_, hsends, filePart_postFiles_of_missing hmissing _ _ _⟩

theorem not_exists_of_carries {json : Json} {request : ρ}
    (hcarries : Carries lib json request) (hnone : ∀ k, lib.filePart request k = none) :
    ∀ path ∈ json.listedPaths, fs.fileExists path = false := by
  intro path hpath
  rw [Bool.eq_false_iff]
  intro hexists
  have hpart := hcarries.1 path hpath hexists
  rw [hnone, Option.map_none] at hpart
  cases hpart

theorem carries_of_forall {json : Json} {request : ρ} (hfields : json.listedFields = [])
    (hexists : ∀ path ∈ json.listedPaths, fs.fileExists path = true)
    (h : Sends lib json request) : Carries lib json request := by
  obtain ⟨-, params, fileOrder, paramOrder, hmem, rfl⟩ := h.exists_order
  refine ⟨?_, by simp [hfields]⟩
  intro path hpath _
  rw [filePart_postFiles_of_forall ?_ (fun entry hentry => ((hmem entry).mp hentry).2)
    ((hmem _).mpr ⟨hpath, rfl⟩)]
  · rfl
  · intro entry hentry
    obtain ⟨hlisted, hself⟩ := (hmem entry).mp hentry
    rw [hself]
    exact hexists _ hlisted

/-- For all classes, JSON texts and file systems: a request is sent exactly for the well-formed
texts, and the requests carry everything that is listed, whatever the orders of iteration are,
exactly when no form fields are listed and the listed files exist all or not at all. -/
theorem upload_carries_iff (lib : RequestParams fs ρ) (json : Json) :
    ((∃ request, Sends lib json request) ↔ json.WellFormed) ∧
    ((∀ request, Sends lib json request → Carries lib json request) ↔
      (json.WellFormed → json.listedFields = [] ∧
        ((∀ path ∈ json.listedPaths, fs.fileExists path = true) ∨
          ∀ path ∈ json.listedPaths, fs.fileExists path = false))) := by
  have hsent : (∃ request, Sends lib json request) ↔ json.WellFormed := by
    constructor
    · rintro ⟨request, h⟩
      exact h.exists_order.1
    · intro hwell
      obtain ⟨params, paramOrder, hsends⟩ := sends_of_perm lib hwell .rfl
      exact ⟨_, hsends⟩
  refine ⟨hsent, fun hcarries hwell => ⟨?_, ?_⟩, fun hcond request hsends => ?_⟩
  · obtain ⟨request, hsends⟩ := hsent.mpr hwell
    exact hsends.listedFields_eq_nil (hcarries _ hsends)
  · by_cases hall : ∀ path ∈ json.listedPaths, fs.fileExists path = true
    · exact Or.inl hall
    · obtain ⟨missing, hlisted, hmissing⟩ := not_forall₂.mp hall
      obtain ⟨request, hsends, hnone⟩ :=
        exists_sends_without_parts lib hwell hlisted (Bool.eq_false_iff.mpr hmissing)
      exact Or.inr (not_exists_of_carries (hcarries _ hsends) hnone)
  · obtain ⟨hfields, hall | hnone⟩ := hcond hsends.exists_order.1
    · exact carries_of_forall hfields hall hsends
    · refine ⟨fun path hpath hexists => ?_, by simp [hfields]⟩
      exact absurd hexists (Bool.eq_false_iff.mp (hnone path hpath))

end Requests

def mapParams (fs : FileSystem) : RequestParams fs (Std.ExtTreeMap String FilePart) where
  new := ∅
  put params key part :=
    if fs.fileExists part.file then .ok (params.insert key part) else .error .fileNotFound
  setHttpEntityIsRepeatable params _ := params
  setUseJsonStreamer params _ := params
  filePart params key := params[key]?
  formField _ _ := none
  filePart_new _ := Std.ExtTreeMap.getElem?_empty
  formField_new _ := rfl
  put_of_exists params key part hexists := by
    refine ⟨_, if_pos hexists, fun k => ?_, fun _ => rfl⟩
    simp only [Std.ExtTreeMap.getElem?_insert, Std.LawfulEqCmp.compare_eq_iff_eq, @eq_comm _ k]
  put_of_missing params key part hmissing := if_neg (Bool.eq_false_iff.mp hmissing)
  filePart_setters _ _ _ _ := rfl
  formField_setters _ _ _ _ := rfl

def fileSystemOf (paths : List String) : FileSystem :=
  ⟨fun path => paths.contains path, fun _ => octetStream, id⟩

/-- The JSON of an upload of `a` and `b` with the given parameters. -/
def sampleUpload (params : List (String × Json)) : Json :=
  .object [("files", .array [.object [("path", .string "a")] "",
    .object [("path", .string "b")] ""] ""), ("params", .object params "")] ""

example : (mapParams (fileSystemOf ["a.AMR"])).filePart
    (postFiles (mapParams (fileSystemOf ["a.AMR"])) ∅ [("a.AMR", "a.AMR")] []) "a.AMR" =
      some ⟨"a.AMR", "audio/amr", "a.AMR"⟩ := by
  decide

/-- In every class: without `a`, which the iteration can come upon first, `b` is not sent either,
and the field `k` is not sent even when both files are there. -/
theorem not_carries_missingFirst_field :
    (∀ (ρ : Type) (lib : RequestParams (fileSystemOf ["b"]) ρ),
      ∃ request, Sends lib (sampleUpload []) request ∧
        ¬ Carries lib (sampleUpload []) request) ∧
    ∀ (ρ : Type) (lib : RequestParams (fileSystemOf ["a", "b"]) ρ),
      ∃ request, Sends lib (sampleUpload [("k", .string "v")]) request ∧
        ¬ Carries lib (sampleUpload [("k", .string "v")]) request := by
  have hwell : ∀ params, (sampleUpload params).WellFormed :=
    fun params => ⟨⟨_, rfl, by decide⟩, _, rfl⟩
  constructor
  · intro ρ lib
    obtain ⟨request, hsends, hnone⟩ := exists_sends_without_parts lib (hwell [])
      (List.mem_cons_self : "a" ∈ _) (by decide)
    refine ⟨request, hsends, fun hcarries => ?_⟩
    exact absurd (not_exists_of_carries hcarries hnone "b" (by decide)) (by decide)
  · intro ρ lib
    obtain ⟨params, paramOrder, hsends⟩ := sends_of_perm lib (hwell [("k", .string "v")]) .rfl
    exact ⟨_, hsends, fun hcarries => absurd (hsends.listedFields_eq_nil hcarries) (by decide)⟩

/-- An upload of two files that exist, without fields. -/
theorem carries_twoFiles :
    (∃ request, Sends (mapParams (fileSystemOf ["a", "b"])) (sampleUpload []) request) ∧
    ∀ request, Sends (mapParams (fileSystemOf ["a", "b"])) (sampleUpload []) request →
      Carries (mapParams (fileSystemOf ["a", "b"])) (sampleUpload []) request := by
  obtain ⟨hsent, hcarries⟩ :=
    upload_carries_iff (mapParams (fileSystemOf ["a", "b"])) (sampleUpload [])
  exact ⟨hsent.mpr ⟨⟨_, rfl, by decide⟩, _, rfl⟩, hcarries.mpr fun _ => by decide⟩

end Network

end UnifyFramework
