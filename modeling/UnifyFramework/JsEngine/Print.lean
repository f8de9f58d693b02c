import UnifyFramework.Duktape.ValueStack
import UnifyFramework.Text.Format
import UnifyFramework.Text.Lines

/-!
# Printing from scripts

`js_print` puts the texts of its arguments behind each other, with spaces between them, and
hands the result to `CCLOG`. In builds with `CE_DEBUG` this is `ce::log`, which takes it for a
format string. So a percent sign that a script prints begins a conversion: two of them are
logged as one, and otherwise `vsnprintf` looks for an argument that is not there. A text of a
length the log has room for is logged as it is exactly when it has no percent sign in it.
-/

namespace UnifyFramework

namespace JsEngine

open Debugger Duktape

def kMaxLogLen : ℕ := 16 * 1024

def percent : UInt8 := 0x25

/-- `vsnprintf` without arguments. It writes one byte less than `size`, and it is `none` where a
conversion has no argument. -/
def vsnprintf (size : ℕ) (format : Bytes) : Option Bytes :=
  (Text.expand percent format).map (List.take (size - 1))

/-- `ce::log` of a format string alone, with the text in `logbuff`. -/
def log (format : Bytes) : Option Bytes := vsnprintf kMaxLogLen (Text.upTo 0 format)

def classArray : Fin 128 := ⟨2, by decide⟩

def classThread : Fin 128 := ⟨18, by decide⟩

/-- The text of a printed value. A lightfunc is a function for `duk_is_function`, so that the
branch for lightfuncs is never reached. It is `none` where a conversion throws. -/
def printedText (js : Script) (value : DukTval) : Option Bytes :=
  match value with
  | .string data => some data
  | .null => some (ascii ['n', 'u', 'l', 'l'])
  | .undefined => some (ascii ['u', 'n', 'd', 'e', 'f', 'i', 'n', 'e', 'd'])
  | .boolean true => some (ascii ['t', 'r', 'u', 'e'])
  | .boolean false => some (ascii ['f', 'a', 'l', 's', 'e'])
  | .lightfunc _ _ => some (ascii ['f', 'u', 'n', 'c', 't', 'i', 'o', 'n'])
  | .object classNumber _ =>
      if js.isFunction value then some (ascii ['f', 'u', 'n', 'c', 't', 'i', 'o', 'n'])
      else if classNumber = classArray then js.dukJsonEncode value
      else if classNumber = classThread then some (ascii ['t', 'h', 'r', 'e', 'a', 'd'])
      else js.dukJsonEncode value
  | .unused | .pointer _ | .buffer _ | .number _ => js.dukToString value

/-- The loop over the arguments. The texts are appended as C strings, and a space behind every
one but the last. -/
def printLoop (js : Script) (t : Bytes) : List DukTval → Option Bytes
  | [] => some t
  | [value] => (printedText js value).map fun text => t ++ Text.upTo 0 text
  | value :: next :: values => (printedText js value).bind fun text =>
      printLoop js (t ++ Text.upTo 0 text ++ [0x20]) (next :: values)

def marker : Bytes := ascii ['[', 'J', 'S', ']', ' ']

/-- `js_print` in a build with `CE_DEBUG`, with the text that is logged. -/
def jsPrint (js : Script) (values : List DukTval) : Option Bytes :=
  (printLoop js marker values).bind log

def joined (texts : List Bytes) : Bytes := marker ++ [0x20].intercalate texts

def PrintsAs (js : Script) (values : List DukTval) (texts : List Bytes) : Prop :=
  List.Forall₂ (fun value text => printedText js value = some text) values texts

theorem printLoop_eq {js : Script} {values : List DukTval} {texts : List Bytes}
    (h : PrintsAs js values texts) (t : Bytes) :
    printLoop js t values = some (t ++ [0x20].intercalate (texts.map (Text.upTo 0))) := by
  induction h generalizing t with
  | nil => rw [printLoop, List.map_nil, List.intercalate_nil, List.append_nil]
  | cons hvalue hrest ih =>
      cases hrest with
      | nil =>
          rw [printLoop, hvalue, Option.map_some, List.map_singleton, List.intercalate_singleton]
      | cons hnext hrest =>
          rw [printLoop, hvalue, Option.bind_some, ih]
          simp only [List.map_cons, List.intercalate_cons_cons, List.append_assoc]

/-- Without NUL bytes in the texts nothing is cut. -/
theorem printLoop_eq_joined {js : Script} {values : List DukTval} {texts : List Bytes}
    (h : PrintsAs js values texts) (hnul : 0 ∉ joined texts) :
    printLoop js marker values = some (joined texts) := by
  have hspace : (0 : UInt8) ≠ 0x20 := by decide
  have hfree : ∀ text ∈ texts, 0 ∉ text := by
    intro text htext hmem
    have hjoin := (Text.mem_intercalate_iff hspace texts).mpr ⟨text, htext, hmem⟩
    exact hnul (List.mem_append_right marker hjoin)
  have hwhole : texts.map (Text.upTo 0) = texts := by
    calc texts.map (Text.upTo 0) = texts.map id :=
          List.map_congr_left fun text htext => Text.upTo_eq_self_iff.mpr (hfree text htext)
      _ = texts := List.map_id texts
  rw [printLoop_eq h, hwhole]
  rfl

/-- For all scripts and values whose joined text has no NUL byte and is shorter than
`kMaxLogLen`: the text is logged as it is exactly when it has no percent sign. -/
theorem jsPrint_literal_iff (js : Script) (values : List DukTval) (texts : List Bytes)
    (h : PrintsAs js values texts) (hnul : 0 ∉ joined texts)
    (hlen : (joined texts).length < kMaxLogLen) :
    jsPrint js values = some (joined texts) ↔ percent ∉ joined texts := by
  rw [jsPrint, printLoop_eq_joined h hnul, Option.bind_some, log, vsnprintf,
    Text.upTo_eq_self_iff.mpr hnul]
  exact Text.take_expand_iff (Nat.le_sub_one_of_lt hlen)

/-- Scripts in which every number is printed as `7` and every object as `{}`. -/
def sampleScript : Script :=
  ⟨.undefined, fun _ => none, fun _ => false, fun _ _ => .returned .undefined,
    fun _ => some [0x37], fun _ => some [0x7b, 0x7d]⟩

/-- `print("100%")` has no defined result, and `print("7%%")` is logged as `7%`. -/
theorem not_literal_percent :
    (PrintsAs sampleScript [.string [0x31, 0x30, 0x30, 0x25]] [[0x31, 0x30, 0x30, 0x25]] ∧
      jsPrint sampleScript [.string [0x31, 0x30, 0x30, 0x25]] = none) ∧
    PrintsAs sampleScript [.string [0x37, 0x25, 0x25]] [[0x37, 0x25, 0x25]] ∧
      0 ∉ joined [[0x37, 0x25, 0x25]] ∧ (joined [[0x37, 0x25, 0x25]]).length < kMaxLogLen ∧
      jsPrint sampleScript [.string [0x37, 0x25, 0x25]] = some (joined [[0x37, 0x25]]) ∧
      jsPrint sampleScript [.string [0x37, 0x25, 0x25]] ≠ some (joined [[0x37, 0x25, 0x25]]) :=
  ⟨⟨.cons rfl .nil, by decide⟩, .cons rfl .nil, by decide⟩

/-- `print("a", 7, {}, null)`. -/
theorem literal_fourValues :
    jsPrint sampleScript [.string [0x61], .number 0x401c000000000000,
        .object 10 ⟨[0, 0, 0, 1], Or.inl rfl⟩, .null] =
      some (joined [[0x61], [0x37], [0x7b, 0x7d], [0x6e, 0x75, 0x6c, 0x6c]]) :=
  (jsPrint_literal_iff sampleScript _ _
    (.cons rfl (.cons rfl (.cons rfl (.cons rfl .nil)))) (by decide) (by decide)).mpr (by decide)

end JsEngine

end UnifyFramework
