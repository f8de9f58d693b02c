import Mathlib.Algebra.Group.Nat.Defs
import Mathlib.Data.Nat.Log
import Mathlib.Data.List.DropRight

/-!
# Numbers in decimal

The texts that `printf` writes for numbers: `%d` for an integer, and `%g` with a given
precision for a double that is given by its bits. The double is converted exactly: it is a
quotient of two natural numbers, and the digits are those of this quotient at its decimal
exponent, rounded to the nearest number and to the even one where two are equally near.
-/

namespace Text

def decimal (i : ℤ) : List Char :=
  if i < 0 then '-' :: Nat.toDigits 10 i.natAbs else Nat.toDigits 10 i.natAbs

/-- The natural number nearest to `num / den`, the even one of two. -/
def roundHalfEven (num den : ℕ) : ℕ :=
  if den < 2 * (num % den) ∨ (2 * (num % den) = den ∧ num / den % 2 = 1) then num / den + 1
  else num / den

/-- The decimal exponent of `num / den`. -/
def exponent (num den : ℕ) : ℤ :=
  if den ≤ num then Nat.log 10 (num / den) else -Nat.clog 10 ((den + num - 1) / num)

/-- The digits of `num / den` with a given precision and the exponent of the first one. -/
def scientific (precision num den : ℕ) : ℕ × ℤ :=
  if num = 0 then (0, 0)
  else
    let x := exponent num den
    let shift : ℤ := precision - 1 - x
    let digits := roundHalfEven (num * 10 ^ shift.toNat) (den * 10 ^ (-shift).toNat)
    -- rounding up may give one digit more
    if digits = 10 ^ precision then (10 ^ (precision - 1), x + 1) else (digits, x)

/-- An integral part with its fraction. The zeros at the end are left out, and so is the point
if nothing is left behind it. -/
def fraction (integral digits : List Char) : List Char :=
  match digits.rdropWhile (· = '0') with
  | [] => integral
  | digits => integral ++ '.' :: digits

/-- The exponent has at least two digits. -/
def exponentText (x : ℤ) : List Char :=
  'e' :: (if x < 0 then '-' else '+') ::
    (if x.natAbs < 10 then '0' :: Nat.toDigits 10 x.natAbs else Nat.toDigits 10 x.natAbs)

/-- `%g` of a number that is not negative, from its digits and its exponent. -/
def general (precision digits : ℕ) (x : ℤ) : List Char :=
  let text := Nat.toDigits 10 digits
  if x < -4 ∨ precision ≤ x then
    fraction (text.take 1) (text.drop 1) ++ exponentText x
  else if x < 0 then fraction ['0'] (List.replicate (-x - 1).toNat '0' ++ text)
  else fraction (text.take (x + 1).toNat) (text.drop (x + 1).toNat)

namespace Double

def negative (bits : UInt64) : Bool := bits.toNat / 2 ^ 63 = 1

def biased (bits : UInt64) : ℕ := bits.toNat / 2 ^ 52 % 2 ^ 11

def mantissa (bits : UInt64) : ℕ := bits.toNat % 2 ^ 52

def isNan (bits : UInt64) : Bool := biased bits = 2 ^ 11 - 1 && mantissa bits ≠ 0

def isInf (bits : UInt64) : Bool := biased bits = 2 ^ 11 - 1 && mantissa bits = 0

/-- The significand, an integer. The leading bit is hidden unless the number is subnormal. -/
def significand (bits : UInt64) : ℕ :=
  if biased bits = 0 then mantissa bits else 2 ^ 52 + mantissa bits

/-- `%.*g` of a finite double. -/
def general (precision : ℕ) (bits : UInt64) : List Char :=
  let e : ℤ := max (biased bits) 1 - 1075
  let s := scientific precision (significand bits * 2 ^ e.toNat) (2 ^ (-e).toNat)
  let text := Text.general precision s.1 s.2
  if negative bits then '-' :: text else text

end Double

def IsGraph (c : Char) : Prop := 0x21 ≤ c.toNat ∧ c.toNat ≤ 0x7e

instance (c : Char) : Decidable (IsGraph c) := inferInstanceAs (Decidable (_ ∧ _))

theorem isGraph_of_mem_toDigits {n : ℕ} : ∀ c ∈ Nat.toDigits 10 n, IsGraph c := by
  intro c hc
  have hdigit := Nat.isDigit_of_mem_toDigits (by decide) (by decide) hc
  have hrange : '0'.toNat ≤ c.toNat ∧ c.toNat ≤ '9'.toNat := by
    simpa [Char.isDigit, Char.le_def, UInt32.le_iff_toNat_le] using hdigit
  exact ⟨Nat.le_trans (by decide) hrange.1, Nat.le_trans hrange.2 (by decide)⟩

theorem isGraph_decimal (i : ℤ) : ∀ c ∈ decimal i, IsGraph c := by
  rw [decimal]
  split
  · exact List.forall_mem_cons.mpr ⟨by decide, isGraph_of_mem_toDigits⟩
  · exact isGraph_of_mem_toDigits

theorem isGraph_fraction {integral digits : List Char} (hintegral : ∀ c ∈ integral, IsGraph c)
    (hdigits : ∀ c ∈ digits, IsGraph c) : ∀ c ∈ fraction integral digits, IsGraph c := by
  have hdropped : ∀ c ∈ digits.rdropWhile (· = '0'), IsGraph c := fun c hc =>
    hdigits c ((List.rdropWhile_prefix _ _).subset hc)
  rw [fraction]
  split
  · exact hintegral
  · exact List.forall_mem_append.mpr
      ⟨hintegral, List.forall_mem_cons.mpr ⟨by decide, hdropped⟩⟩

theorem isGraph_exponentText (x : ℤ) : ∀ c ∈ exponentText x, IsGraph c := by
  have hsign : IsGraph (if x < 0 then '-' else '+') := by
    split
    · decide
    · decide
  refine List.forall_mem_cons.mpr ⟨by decide, List.forall_mem_cons.mpr ⟨hsign, ?_⟩⟩
  split
  · exact List.forall_mem_cons.mpr ⟨by decide, isGraph_of_mem_toDigits⟩
  · exact isGraph_of_mem_toDigits

theorem isGraph_general (precision digits : ℕ) (x : ℤ) :
    ∀ c ∈ general precision digits x, IsGraph c := by
  have htext : ∀ c ∈ Nat.toDigits 10 digits, IsGraph c := isGraph_of_mem_toDigits
  have htake : ∀ n, ∀ c ∈ (Nat.toDigits 10 digits).take n, IsGraph c := fun n c hc =>
    htext c (List.mem_of_mem_take hc)
  have hdrop : ∀ n, ∀ c ∈ (Nat.toDigits 10 digits).drop n, IsGraph c := fun n c hc =>
    htext c (List.mem_of_mem_drop hc)
  have hzero : IsGraph '0' := by decide
  rw [general]
  split
  · exact List.forall_mem_append.mpr
      ⟨isGraph_fraction (htake 1) (hdrop 1), isGraph_exponentText x⟩
  split
  · refine isGraph_fraction (List.forall_mem_singleton.mpr hzero)
      (List.forall_mem_append.mpr ⟨?_, htext⟩)
    intro c hc
    rwa [List.eq_of_mem_replicate hc]
  · exact isGraph_fraction (htake _) (hdrop _)

theorem Double.isGraph_general (precision : ℕ) (bits : UInt64) :
    ∀ c ∈ Double.general precision bits, IsGraph c := by
  rw [Double.general]
  split
  · exact List.forall_mem_cons.mpr ⟨by decide, Text.isGraph_general _ _ _⟩
  · exact Text.isGraph_general _ _ _

-- 0.1 is not a double: the nearest one is a little greater
example : Double.general 17 0x3fb999999999999a =
    ['0', '.', '1', '0', '0', '0', '0', '0', '0', '0', '0', '0', '0', '0', '0', '0', '0', '0',
      '1'] := by
  decide

-- the least positive double
example : Double.general 17 1 =
    ['4', '.', '9', '4', '0', '6', '5', '6', '4', '5', '8', '4', '1', '2', '4', '6', '5', '4',
      'e', '-', '3', '2', '4'] := by
  decide +kernel

end Text
