import UnifyFramework.Debugger.Dvalue

/-!
# The message grammars of the debugger

The six grammars of `DukDebuggerGrammar.cpp` that recognize a whole message, from
its marker byte to the end-of-message byte, with the structures they fill in.
Every one of them is exact: one byte of lookahead decides each choice, and the
greedy star over the name/value pairs stops exactly at the end-of-message byte.
-/

namespace UnifyFramework

namespace Debugger

open Parsing Parsing.Parser

structure VersionIdentification where
  line : Bytes
  deriving DecidableEq, Repr

structure StatusNotification where
  state : Int
  fileName : Bytes
  funcName : Bytes
  lineNumber : Int
  pc : Int
  deriving DecidableEq, Repr

structure ReplyInt where
  value : Int
  deriving DecidableEq, Repr

structure Reply where
  values : List Int
  deriving DecidableEq, Repr

structure ReplyNameValue where
  name : Bytes
  value : VarType
  deriving DecidableEq, Repr

structure ReplyNameValueArray where
  values : List ReplyNameValue
  deriving DecidableEq, Repr

structure ExceptionNotification where
  fatal : Int
  msg : Bytes
  fileName : Bytes
  line : Int
  deriving DecidableEq, Repr

def req : UInt8 := 0x01
def rep : UInt8 := 0x02
def nfy : UInt8 := 0x04
def eom : UInt8 := 0x00
def intShift : UInt8 := 0x80
def notificationStatusInt : UInt8 := intShift + 0x01
def notificationExceptionInt : UInt8 := intShift + 0x05

/-- The attribute of this rule is a fusion sequence of one element, so Spirit stores
the first of the four components in `line` and drops the others. -/
def versionIdentificationGrammar : Parser UInt8 VersionIdentification := do
  let c ← charRange 0x31 0x39
  let _ ← charLit 0x20
  let _ ← satisfy fun x => decide (x ≠ 0x0a)
  let _ ← many (satisfy fun x => decide (x ≠ 0x0a))
  let _ ← charLit 0x0a
  pure ⟨[c]⟩

def statusNotificationGrammar : Parser UInt8 StatusNotification := do
  let _ ← charLit nfy
  let _ ← charLit notificationStatusInt
  let state ← dukDebugInteger
  let fileName ← dukDebugStr
  let funcName ← dukDebugStr
  let lineNumber ← dukDebugInteger
  let pc ← dukDebugInteger
  let _ ← charLit eom
  pure ⟨state, fileName, funcName, lineNumber, pc⟩

def replyGrammar : Parser UInt8 Reply := do
  let _ ← charLit rep
  let _ ← charLit eom
  pure ⟨[]⟩

def replyIntGrammar : Parser UInt8 ReplyInt := do
  let _ ← charLit rep
  let value ← dukDebugInteger
  let _ ← charLit eom
  pure ⟨value⟩

/-- `debugInt | debugString | debugDouble | debugJsClass`. -/
def replyValue (sign : CharSign) : Parser UInt8 VarType :=
  choice (dukDebugInteger >>= fun v => pure (.int v)) <|
    choice (dukDebugStr >>= fun v => pure (.string v)) <|
      choice (dukDebugDouble >>= fun v => pure (.double v))
        (dukDebugJsClass sign >>= fun v => pure (.jsClass v))

def replyNameValueGrammar (sign : CharSign) : Parser UInt8 ReplyNameValue := do
  let name ← dukDebugStr
  let value ← replyValue sign
  pure ⟨name, value⟩

def replyNameValueArrayGrammar (sign : CharSign) : Parser UInt8 ReplyNameValueArray := do
  let _ ← charLit rep
  let values ← many (replyNameValueGrammar sign)
  let _ ← charLit eom
  pure ⟨values⟩

def exceptionNotificationGrammar : Parser UInt8 ExceptionNotification := do
  let _ ← charLit nfy
  let _ ← charLit notificationExceptionInt
  let fatal ← dukDebugInteger
  let msg ← dukDebugStr
  let fileName ← dukDebugStr
  let line ← dukDebugInteger
  let _ ← charLit eom
  pure ⟨fatal, msg, fileName, line⟩

theorem exact_charLit_pure {α : Type} (c : UInt8) (a : α) :
    Exact (charLit c >>= fun _ => pure a) :=
  (exactFrom_charLit c).exact.bind fun _ => exact_pure a

theorem exactFrom_versionIdentificationGrammar :
    ExactFrom {c | 0x31 ≤ c.toNat ∧ c.toNat ≤ 0x39} versionIdentificationGrammar := by
  refine (exactFrom_charRange 0x31 0x39).bind fun c =>
    (exactFrom_charLit 0x20).exact.bind fun _ => (exact_satisfy _).bind fun _ => ?_
  refine (exactFrom_satisfy _).many_bind (T := {0x0a}) (fun _ => ?_) ?_
  · exact (exactFrom_charLit 0x0a).bind fun _ => exact_pure _
  · simp

theorem exactFrom_statusNotificationGrammar : ExactFrom {nfy} statusNotificationGrammar :=
  (exactFrom_charLit nfy).bind fun _ =>
    (exactFrom_charLit notificationStatusInt).exact.bind fun _ =>
    exactFrom_dukDebugInteger.exact.bind fun _ =>
    exactFrom_dukDebugStr.exact.bind fun _ =>
    exactFrom_dukDebugStr.exact.bind fun _ =>
    exactFrom_dukDebugInteger.exact.bind fun _ =>
    exactFrom_dukDebugInteger.exact.bind fun _ => exact_charLit_pure eom _

theorem exactFrom_exceptionNotificationGrammar :
    ExactFrom {nfy} exceptionNotificationGrammar :=
  (exactFrom_charLit nfy).bind fun _ =>
    (exactFrom_charLit notificationExceptionInt).exact.bind fun _ =>
    exactFrom_dukDebugInteger.exact.bind fun _ =>
    exactFrom_dukDebugStr.exact.bind fun _ =>
    exactFrom_dukDebugStr.exact.bind fun _ =>
    exactFrom_dukDebugInteger.exact.bind fun _ => exact_charLit_pure eom _

theorem exactFrom_replyGrammar : ExactFrom {rep} replyGrammar :=
  (exactFrom_charLit rep).bind fun _ => exact_charLit_pure eom _

theorem exactFrom_replyIntGrammar : ExactFrom {rep} replyIntGrammar :=
  (exactFrom_charLit rep).bind fun _ =>
    exactFrom_dukDebugInteger.exact.bind fun _ => exact_charLit_pure eom _

theorem exactFrom_replyValue (sign : CharSign) :
    ExactFrom (intFirst ∪ (strFirst ∪ ({0x1a} ∪ {0x1b}))) (replyValue sign) := by
  have hobject := (exactFrom_dukDebugDouble.bind fun v => exact_pure (VarType.double v)).choice
    ((exactFrom_dukDebugJsClass sign).bind fun v => exact_pure (VarType.jsClass v)) (by simp)
  have hstring := (exactFrom_dukDebugStr.bind fun v => exact_pure (VarType.string v)).choice
    hobject (by simp [strFirst])
  refine (exactFrom_dukDebugInteger.bind fun v => exact_pure (VarType.int v)).choice hstring ?_
  rw [Set.disjoint_left]
  intro c hint hrest
  simp only [intFirst, strFirst, Set.mem_union, Set.mem_ofPred_eq, Set.mem_singleton_iff,
    ← UInt8.toNat_inj, UInt8.reduceToNat] at hint hrest
  omega

theorem exactFrom_replyNameValueGrammar (sign : CharSign) :
    ExactFrom strFirst (replyNameValueGrammar sign) :=
  exactFrom_dukDebugStr.bind fun _ =>
    (exactFrom_replyValue sign).exact.bind fun _ => exact_pure _

theorem eom_not_mem_strFirst : eom ∉ strFirst := by
  simp [eom, strFirst]

theorem exactFrom_replyNameValueArrayGrammar (sign : CharSign) :
    ExactFrom {rep} (replyNameValueArrayGrammar sign) := by
  refine (exactFrom_charLit rep).bind fun _ => ?_
  refine (exactFrom_replyNameValueGrammar sign).many_bind (T := {eom}) (fun _ => ?_) ?_
  · exact (exactFrom_charLit eom).bind fun _ => exact_pure _
  · exact Set.disjoint_singleton_right.mpr eom_not_mem_strFirst

end Debugger

end UnifyFramework
