import UnifyFramework.Debugger.Message
import UnifyFramework.Text.Decimal
import UnifyFramework.Text.Lines

/-!
# The view of the local variables

`CEJsEngine::OnDebuggerGetLocalsFunc` turns the reply to a `GetLocals` request into two texts,
one with a line for the name of every variable and one with a line for its value, and hands
them over as C strings. A newline inside a value is escaped, a NUL byte is not, so that a
string value with a NUL byte ends the second text in the middle of its line. With names as
JavaScript has them this is the only way in which the two texts come apart.
-/

namespace UnifyFramework

namespace JsEngine

open Debugger Text

def nul : UInt8 := 0

def newline : UInt8 := 0x0a

/-- `boost::lexical_cast<std::string>` of an integer. -/
def lexicalCast (i : ℤ) : Bytes := ascii (decimal i)

/-- `boost::lexical_cast<std::string>` of a double, which writes 17 digits. -/
def lexicalCastDouble (bits : UInt64) : Bytes :=
  let minus := if Double.negative bits then ['-'] else []
  if Double.isNan bits then ascii (minus ++ ['n', 'a', 'n'])
  else if Double.isInf bits then ascii (minus ++ ['i', 'n', 'f'])
  else ascii (Double.general 17 bits)

def debuggerValueVisitor : VarType → Bytes
  | .int i => lexicalCast i ++ ascii [' ', '(', 'i', 'n', 't', ')']
  | .string str => str ++ ascii [' ', '(', 's', 't', 'r', ')']
  | .double d => lexicalCastDouble d ++ ascii [' ', '(', 'd', 'o', 'u', 'b', 'l', 'e', ')']
  | .jsClass obj =>
      ascii ['c', 'l', 'a', 's', 's', ' '] ++ lexicalCast obj.number ++
        ascii [',', ' ', 's', 'i', 'z', 'e', ' '] ++ lexicalCast obj.data.length ++
        ascii [' ', '(', 'c', 'l', 'a', 's', 's', ')']

/-- The text of a value on its line, with a backslash and an `n` for every newline. -/
def resultValue (value : VarType) : Bytes :=
  replaceAll newline (ascii ['\\', 'n']) (debuggerValueVisitor value)

structure LocalsText where
  resultNames : Bytes
  resultValues : Bytes
  deriving DecidableEq, Repr

namespace LocalsText

def add (t : LocalsText) (replyNameValue : ReplyNameValue) : LocalsText :=
  ⟨t.resultNames ++ (replyNameValue.name ++ [newline]),
    t.resultValues ++ (resultValue replyNameValue.value ++ [newline])⟩

/-- The last newlines are erased. Whether the values have one is asked of the names, after
theirs is gone. -/
def trim (t : LocalsText) : LocalsText :=
  let resultNames :=
    if t.resultNames.length > 0 then t.resultNames.dropLast else t.resultNames
  ⟨resultNames, if resultNames.length > 0 then t.resultValues.dropLast else t.resultValues⟩

def cStr (t : LocalsText) : LocalsText := ⟨upTo nul t.resultNames, upTo nul t.resultValues⟩

end LocalsText

def onDebuggerGetLocalsFunc (replyNameValueArray : ReplyNameValueArray) : LocalsText :=
  (replyNameValueArray.values.foldl LocalsText.add ⟨[], []⟩).trim.cStr

def Aligned (replyNameValueArray : ReplyNameValueArray) (t : LocalsText) : Prop :=
  t.resultNames.splitOn newline = replyNameValueArray.values.map ReplyNameValue.name ∧
    t.resultValues.splitOn newline =
      replyNameValueArray.values.map fun replyNameValue => resultValue replyNameValue.value

instance (replyNameValueArray : ReplyNameValueArray) (t : LocalsText) :
    Decidable (Aligned replyNameValueArray t) := inferInstanceAs (Decidable (_ ∧ _))

def IsName (name : Bytes) : Prop := name ≠ [] ∧ newline ∉ name ∧ nul ∉ name

instance (name : Bytes) : Decidable (IsName name) := inferInstanceAs (Decidable (_ ∧ _ ∧ _))

def NulFree : VarType → Prop
  | .string str => nul ∉ str
  | .int _ | .double _ | .jsClass _ => True

instance decidableNulFree : (value : VarType) → Decidable (NulFree value)
  | .string str => inferInstanceAs (Decidable (nul ∉ str))
  | .int _ | .double _ | .jsClass _ => inferInstanceAs (Decidable True)

theorem nul_notMem_ascii {text : List Char} (h : ∀ c ∈ text, IsGraph c) : nul ∉ ascii text := by
  intro hmem
  obtain ⟨c, hc, hnul⟩ := List.mem_map.mp hmem
  obtain ⟨hlow, hhigh⟩ := h c hc
  have hzero : (UInt8.ofNat c.toNat).toNat = 0 := congrArg UInt8.toNat hnul
  rw [UInt8.toNat_ofNat'] at hzero
  omega

theorem nul_notMem_lexicalCast (i : ℤ) : nul ∉ lexicalCast i :=
  nul_notMem_ascii (isGraph_decimal i)

theorem nul_notMem_lexicalCastDouble (bits : UInt64) : nul ∉ lexicalCastDouble bits := by
  rw [lexicalCastDouble]
  split
  · cases Double.negative bits <;> decide
  split
  · cases Double.negative bits <;> decide
  · exact nul_notMem_ascii (Double.isGraph_general 17 bits)

theorem nul_notMem_resultValue_iff (value : VarType) : nul ∉ resultValue value ↔ NulFree value := by
  rw [resultValue, mem_replaceAll_iff (by decide) (by decide)]
  cases value with
  | string str =>
      rw [debuggerValueVisitor, List.mem_append, NulFree]
      exact not_congr (or_iff_left (by decide))
  | int i =>
      rw [debuggerValueVisitor, List.mem_append]
      exact iff_of_true (not_or.mpr ⟨nul_notMem_lexicalCast i, by decide⟩) trivial
  | double d =>
      rw [debuggerValueVisitor, List.mem_append]
      exact iff_of_true (not_or.mpr ⟨nul_notMem_lexicalCastDouble d, by decide⟩) trivial
  | jsClass obj =>
      refine iff_of_true ?_ trivial
      simp only [debuggerValueVisitor, List.mem_append, not_or]
      exact ⟨⟨⟨⟨by decide, nul_notMem_lexicalCast _⟩, by decide⟩, nul_notMem_lexicalCast _⟩,
        by decide⟩

theorem foldl_add (values : List ReplyNameValue) (t : LocalsText) :
    values.foldl LocalsText.add t =
      ⟨t.resultNames ++ terminated newline (values.map ReplyNameValue.name),
        t.resultValues ++ terminated newline (values.map fun v => resultValue v.value)⟩ := by
  induction values generalizing t with
  | nil => simp [terminated]
  | cons v values ih => simp [ih, LocalsText.add, terminated]

/-- With a name that is not empty, both texts lose their last newline. -/
theorem trim_foldl_add {values : List ReplyNameValue} (hne : values ≠ [])
    (hnames : ∀ v ∈ values, IsName v.name) :
    (values.foldl LocalsText.add ⟨[], []⟩).trim =
      ⟨[newline].intercalate (values.map ReplyNameValue.name),
        [newline].intercalate (values.map fun v => resultValue v.value)⟩ := by
  obtain ⟨v, rest, rfl⟩ := List.exists_cons_of_ne_nil hne
  have hnamesNe : (v :: rest).map ReplyNameValue.name ≠ [] := by simp
  have hvaluesNe : ((v :: rest).map fun v => resultValue v.value) ≠ [] := by simp
  have hterm : terminated newline ((v :: rest).map ReplyNameValue.name) ≠ [] :=
    terminated_ne_nil hnamesNe
  have hjoined : [newline].intercalate ((v :: rest).map ReplyNameValue.name) ≠ [] := by
    have hname := (hnames v List.mem_cons_self).1
    cases rest with
    | nil => simpa using hname
    | cons w rest => simp [hname]
  rw [foldl_add, LocalsText.trim, List.nil_append, List.nil_append,
    if_pos (List.length_pos_iff.mpr hterm), dropLast_terminated hnamesNe,
    if_pos (List.length_pos_iff.mpr hjoined), dropLast_terminated hvaluesNe]

/-- The variables keep to their lines exactly when no string value holds a NUL byte. -/
theorem onDebuggerGetLocalsFunc_aligned_iff (replyNameValueArray : ReplyNameValueArray)
    (hne : replyNameValueArray.values ≠ [])
    (hnames : ∀ v ∈ replyNameValueArray.values, IsName v.name) :
    Aligned replyNameValueArray (onDebuggerGetLocalsFunc replyNameValueArray) ↔
      ∀ v ∈ replyNameValueArray.values, NulFree v.value := by
  let names := replyNameValueArray.values.map ReplyNameValue.name
  let values := replyNameValueArray.values.map fun v => resultValue v.value
  have hnamesRead : (upTo nul ([newline].intercalate names)).splitOn newline = names ↔
      ∀ line ∈ names, nul ∉ line :=
    splitOn_upTo_iff (List.map_eq_nil_iff.not.mpr hne)
      (List.forall_mem_map.mpr fun v hv => (hnames v hv).2.1) (by decide)
  have hvaluesRead : (upTo nul ([newline].intercalate values)).splitOn newline = values ↔
      ∀ line ∈ values, nul ∉ line :=
    splitOn_upTo_iff (List.map_eq_nil_iff.not.mpr hne)
      (List.forall_mem_map.mpr fun v _ => notMem_replaceAll (by decide) _) (by decide)
  rw [onDebuggerGetLocalsFunc, trim_foldl_add hne hnames, LocalsText.cStr, Aligned,
    hnamesRead, hvaluesRead, List.forall_mem_map, List.forall_mem_map,
    and_iff_right fun v hv => (hnames v hv).2.2]
  exact forall₂_congr fun v _ => nul_notMem_resultValue_iff v.value

/-- The string `"x\0"` and the number 1. -/
def nulInString : ReplyNameValueArray := ⟨[⟨[0x61], .string [0x78, 0x00]⟩, ⟨[0x62], .int 1⟩]⟩

/-- The reply with this string is decoded, and its second text ends behind the `x`. -/
theorem not_aligned_nulInString :
    replyNameValueArrayGrammar .unsigned
        [0x02, 0x61, 0x61, 0x62, 0x78, 0x00, 0x61, 0x62, 0x81, 0x00] = some (nulInString, []) ∧
      (∀ v ∈ nulInString.values, IsName v.name) ∧
      (onDebuggerGetLocalsFunc nulInString).resultValues = [0x78] ∧
      ¬ Aligned nulInString (onDebuggerGetLocalsFunc nulInString) := by
  decide

def newlineInString : ReplyNameValueArray :=
  ⟨[⟨[0x61], .string [0x78, 0x0a, 0x79]⟩, ⟨[0x62], .double 0x3fb999999999999a⟩,
    ⟨[0x63], .jsClass ⟨1, [0x00, 0x00, 0x00, 0x00]⟩⟩]⟩

theorem aligned_newlineInString :
    Aligned newlineInString (onDebuggerGetLocalsFunc newlineInString) :=
  (onDebuggerGetLocalsFunc_aligned_iff newlineInString (by decide) (by decide)).mpr (by decide)

end JsEngine

end UnifyFramework
