import Mathlib.Data.Set.Insert
import UnifyFramework.Parsing.BigEndian
import UnifyFramework.Parsing.Exact
import UnifyFramework.Text.Bytes

/-!
# The dvalue grammars of the debugger

The grammars of `DukDebuggerGrammar.cpp` for the tagged values inside a debugger
message: strings, integers, doubles and objects. A Spirit expression is taken as
the byte parser it denotes. `qi::char_` has the attribute type `char`, so where a
rule stores a character in an `int` without a cast, the sign of plain `char` on
the platform decides the value; `CharSign` is that choice of the compiler.
-/

namespace UnifyFramework

namespace Debugger

open Parsing Parsing.Parser

/-- Whether plain `char` is signed (iOS, x86) or unsigned (Android on ARM). -/
inductive CharSign
  | signed
  | unsigned
  deriving DecidableEq, Repr

/-- A byte stored in an `int` through `char`. -/
def charToInt : CharSign → UInt8 → Int
  | .signed, c => if c.toNat < 128 then c.toNat else c.toNat - 256
  | .unsigned, c => c.toNat

structure JsClass where
  number : Int
  data : Bytes
  deriving DecidableEq, Repr

/-- `dd::VarType`. A double is kept as its IEEE 754 bit pattern. -/
inductive VarType
  | int (value : Int)
  | string (value : Bytes)
  | double (bits : UInt64)
  | jsClass (value : JsClass)
  deriving DecidableEq, Repr

/-- `qi::char_(lo, hi)`. -/
def charRange (lo hi : UInt8) : Parser UInt8 UInt8 :=
  satisfy fun c => decide (lo ≤ c ∧ c ≤ hi)

/-- `qi::char_(c)`. -/
def charLit (c : UInt8) : Parser UInt8 UInt8 := satisfy fun x => decide (x = c)

/-- `qi::char_`. -/
def anyChar : Parser UInt8 UInt8 := satisfy fun _ => true

def bigWord : Parser UInt8 ℕ := do
  let bytes ← count anyChar 2
  pure (ofBigEndian bytes)

def lenStrType1 : Parser UInt8 Bytes := do
  let c ← charRange 0x60 0x7f
  count anyChar (c.toNat - 0x60)

def lenStrType2 : Parser UInt8 Bytes := do
  let _ ← charLit 0x12
  let len ← bigWord
  count anyChar len

/-- The rules `undefinedStr` to `unusedStr` read one tag and yield a fixed text. -/
def tagStr (tag : UInt8) (text : List Char) : Parser UInt8 Bytes := do
  let _ ← charLit tag
  pure (ascii text)

def undefinedStr : Parser UInt8 Bytes :=
  tagStr 0x16 ['u', 'n', 'd', 'e', 'f', 'i', 'n', 'e', 'd']

def nullStr : Parser UInt8 Bytes := tagStr 0x17 ['n', 'u', 'l', 'l']

def trueStr : Parser UInt8 Bytes := tagStr 0x18 ['t', 'r', 'u', 'e']

def falseStr : Parser UInt8 Bytes := tagStr 0x19 ['f', 'a', 'l', 's', 'e']

def unusedStr : Parser UInt8 Bytes :=
  tagStr 0x15 ['u', 'n', 'u', 's', 'e', 'd', '/', 'n', 'o', 'n', 'e']

def dukDebugStr : Parser UInt8 Bytes :=
  choice lenStrType1 <| choice lenStrType2 <| choice undefinedStr <|
    choice nullStr <| choice trueStr <| choice falseStr unusedStr

def shortInteger : Parser UInt8 Int := do
  let c ← charRange 0x80 0xbf
  pure ((c.toNat : Int) - 0x80)

def longInteger : Parser UInt8 Int := do
  let a ← charRange 0xc0 0xff
  let c ← anyChar
  pure (((a.toNat : Int) - 0xC0) * 0x100 + c.toNat)

def dukDebugInteger : Parser UInt8 Int := choice shortInteger longInteger

/-- `big_bin_double` after its tag. -/
def dukDebugDouble : Parser UInt8 UInt64 := do
  let _ ← charLit 0x1a
  let bytes ← count anyChar 8
  pure (UInt64.ofNat (ofBigEndian bytes))

/-- The length byte of an object goes through `char`, and `repeat` with a negative
count reads nothing. -/
def dukDebugJsClass (sign : CharSign) : Parser UInt8 JsClass := do
  let _ ← charLit 0x1b
  let number ← anyChar
  let len ← anyChar
  let data ← count anyChar (charToInt sign len).toNat
  pure ⟨charToInt sign number, data⟩

/-- The bytes a `DukDebugStr` begins with. -/
def strFirst : Set UInt8 :=
  {c | 0x60 ≤ c.toNat ∧ c.toNat ≤ 0x7f ∨ c.toNat = 0x12 ∨ 0x15 ≤ c.toNat ∧ c.toNat ≤ 0x19}

/-- The bytes a `DukDebugInteger` begins with. -/
def intFirst : Set UInt8 := {c | 0x80 ≤ c.toNat}

theorem exactFrom_charRange (lo hi : UInt8) :
    ExactFrom {c | lo.toNat ≤ c.toNat ∧ c.toNat ≤ hi.toNat} (charRange lo hi) := by
  apply (exactFrom_satisfy _).mono
  intro c hc
  simpa [UInt8.le_iff_toNat_le] using hc

theorem exactFrom_charLit (c : UInt8) : ExactFrom {c} (charLit c) := by
  apply (exactFrom_satisfy _).mono
  intro x hx
  simpa using hx

theorem exact_anyChar : Exact anyChar := exact_satisfy _

theorem exact_bigWord : Exact bigWord := (exact_anyChar.count 2).bind fun _ => exact_pure _

theorem exactFrom_tagStr (tag : UInt8) (text : List Char) :
    ExactFrom {tag} (tagStr tag text) :=
  (exactFrom_charLit tag).bind fun _ => exact_pure _

theorem exactFrom_lenStrType1 :
    ExactFrom {c | 0x60 ≤ c.toNat ∧ c.toNat ≤ 0x7f} lenStrType1 :=
  (exactFrom_charRange 0x60 0x7f).bind fun _ => exact_anyChar.count _

theorem exactFrom_lenStrType2 : ExactFrom {0x12} lenStrType2 :=
  (exactFrom_charLit 0x12).bind fun _ => exact_bigWord.bind fun _ => exact_anyChar.count _

/-- The alternatives of `DukDebugStr` begin with different bytes, so the first byte
selects one of them. -/
theorem exactFrom_dukDebugStr : ExactFrom strFirst dukDebugStr := by
  have htags := (exactFrom_tagStr 0x16 ['u', 'n', 'd', 'e', 'f', 'i', 'n', 'e', 'd']).choice
    ((exactFrom_tagStr 0x17 ['n', 'u', 'l', 'l']).choice
      ((exactFrom_tagStr 0x18 ['t', 'r', 'u', 'e']).choice
        ((exactFrom_tagStr 0x19 ['f', 'a', 'l', 's', 'e']).choice
          (exactFrom_tagStr 0x15 ['u', 'n', 'u', 's', 'e', 'd', '/', 'n', 'o', 'n', 'e'])
          (by simp)) (by simp)) (by simp)) (by simp)
  refine (exactFrom_lenStrType1.choice (exactFrom_lenStrType2.choice htags ?_) ?_).mono ?_
  · simp
  · simp
  · intro c hc
    simp only [Set.mem_union, Set.mem_ofPred_eq, Set.mem_singleton_iff, ← UInt8.toNat_inj,
      UInt8.reduceToNat] at hc
    simp only [strFirst, Set.mem_ofPred_eq]
    omega

theorem exactFrom_shortInteger :
    ExactFrom {c | 0x80 ≤ c.toNat ∧ c.toNat ≤ 0xbf} shortInteger :=
  (exactFrom_charRange 0x80 0xbf).bind fun _ => exact_pure _

theorem exactFrom_longInteger :
    ExactFrom {c | 0xc0 ≤ c.toNat ∧ c.toNat ≤ 0xff} longInteger :=
  (exactFrom_charRange 0xc0 0xff).bind fun _ => exact_anyChar.bind fun _ => exact_pure _

theorem exactFrom_dukDebugInteger : ExactFrom intFirst dukDebugInteger := by
  refine (exactFrom_shortInteger.choice exactFrom_longInteger ?_).mono ?_
  · rw [Set.disjoint_left]
    intro c hshort hlong
    simp only [Set.mem_ofPred_eq] at hshort hlong
    omega
  · intro c hc
    simp only [Set.mem_union, Set.mem_ofPred_eq] at hc
    simp only [intFirst, Set.mem_ofPred_eq]
    omega

theorem exactFrom_dukDebugDouble : ExactFrom {0x1a} dukDebugDouble :=
  (exactFrom_charLit 0x1a).bind fun _ => (exact_anyChar.count 8).bind fun _ => exact_pure _

theorem exactFrom_dukDebugJsClass (sign : CharSign) :
    ExactFrom {0x1b} (dukDebugJsClass sign) :=
  (exactFrom_charLit 0x1b).bind fun _ => exact_anyChar.bind fun _ =>
    exact_anyChar.bind fun _ => (exact_anyChar.count _).bind fun _ => exact_pure _

end Debugger

end UnifyFramework
