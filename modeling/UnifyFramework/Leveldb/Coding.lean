import Mathlib.Algebra.Group.Nat.Defs
import UnifyFramework.Parsing.Decodes
import UnifyFramework.Parsing.LittleEndian

/-!
# Encoding of numbers and strings

The files of the database hold numbers of a fixed length, the least significant byte first,
numbers of a variable length, with seven bits in each byte and the eighth saying that more
follow, and strings behind their lengths. What is written is read back, with nothing taken from
what stands behind it.
-/

namespace UnifyFramework

namespace Leveldb

open Parsing Parser

abbrev Slice := List UInt8

def encodeFixed32 (value : ℕ) : Slice := littleEndian 4 value

def encodeFixed64 (value : ℕ) : Slice := littleEndian 8 value

def decodeFixed32 (p : Slice) : ℕ := ofLittleEndian (p.take 4)

def decodeFixed64 (p : Slice) : ℕ := ofLittleEndian (p.take 8)

@[simp]
theorem length_encodeFixed32 (value : ℕ) : (encodeFixed32 value).length = 4 :=
  length_littleEndian 4 value

@[simp]
theorem length_encodeFixed64 (value : ℕ) : (encodeFixed64 value).length = 8 :=
  length_littleEndian 8 value

theorem decodeFixed32_encodeFixed32 {value : ℕ} (h : value < 2 ^ 32) (rest : Slice) :
    decodeFixed32 (encodeFixed32 value ++ rest) = value := by
  have htake : (encodeFixed32 value ++ rest).take 4 = encodeFixed32 value :=
    List.take_left' (length_encodeFixed32 value)
  rw [decodeFixed32, htake]
  exact ofLittleEndian_littleEndian h

theorem decodeFixed64_encodeFixed64 {value : ℕ} (h : value < 2 ^ 64) (rest : Slice) :
    decodeFixed64 (encodeFixed64 value ++ rest) = value := by
  have htake : (encodeFixed64 value ++ rest).take 8 = encodeFixed64 value :=
    List.take_left' (length_encodeFixed64 value)
  rw [decodeFixed64, htake]
  exact ofLittleEndian_littleEndian h

def encodeVarint32 (v : ℕ) : Slice :=
  if v < 2 ^ 7 then [.ofNat v]
  else if v < 2 ^ 14 then [.ofNat (v ||| 128), .ofNat (v >>> 7)]
  else if v < 2 ^ 21 then [.ofNat (v ||| 128), .ofNat (v >>> 7 ||| 128), .ofNat (v >>> 14)]
  else if v < 2 ^ 28 then
    [.ofNat (v ||| 128), .ofNat (v >>> 7 ||| 128), .ofNat (v >>> 14 ||| 128), .ofNat (v >>> 21)]
  else
    [.ofNat (v ||| 128), .ofNat (v >>> 7 ||| 128), .ofNat (v >>> 14 ||| 128),
      .ofNat (v >>> 21 ||| 128), .ofNat (v >>> 28)]

/-- The loop of `GetVarint32PtrFallback`, with the rounds that are left. -/
def getVarint32PtrFallback : ℕ → ℕ → ℕ → Slice → Option (ℕ × Slice)
  | 0, _, _, _ => none
  | _ + 1, _, _, [] => none
  | n + 1, shift, result, byte :: p =>
      if byte.toNat &&& 128 ≠ 0 then
        getVarint32PtrFallback n (shift + 7)
          (result ||| ((byte.toNat &&& 127) <<< shift) % 2 ^ 32) p
      else some (result ||| (byte.toNat <<< shift) % 2 ^ 32, p)

/-- `GetVarint32Ptr`, and with it `GetVarint32`. -/
def getVarint32 : Parser UInt8 ℕ
  | [] => getVarint32PtrFallback 5 0 0 []
  | byte :: p =>
      if byte.toNat &&& 128 = 0 then some (byte.toNat, p)
      else getVarint32PtrFallback 5 0 0 (byte :: p)

def base128 : ℕ → ℕ → Slice
  | 0, v => [.ofNat v]
  | n + 1, v => if v < 128 then [.ofNat v] else .ofNat (v % 128 + 128) :: base128 n (v / 128)

theorem and_128_eq_zero_iff {b : ℕ} (h : b < 256) : b &&& 128 = 0 ↔ b < 128 := by
  have hall : ∀ i : Fin 256, i.val &&& 128 = 0 ↔ i.val < 128 := by decide +kernel
  exact hall ⟨b, h⟩

theorem ofNat_or_128 (v : ℕ) : UInt8.ofNat (v ||| 128) = UInt8.ofNat (v % 128 + 128) := by
  have hall : ∀ i : Fin 256, i.val ||| 128 = i.val % 128 + 128 := by decide +kernel
  have hor : (v ||| 128) % 2 ^ 8 = v % 2 ^ 8 ||| 128 := Nat.or_mod_two_pow
  have hv : v % 2 ^ 8 ||| 128 = v % 2 ^ 8 % 128 + 128 := hall ⟨v % 2 ^ 8, Nat.mod_lt _ (by decide)⟩
  apply UInt8.toNat_inj.mp
  rw [UInt8.toNat_ofNat', UInt8.toNat_ofNat', hor, hv]
  omega

theorem encodeVarint32_eq_base128 (v : ℕ) : encodeVarint32 v = base128 4 v := by
  simp only [encodeVarint32, base128, ofNat_or_128, Nat.shiftRight_eq_div_pow,
    Nat.div_div_eq_div_mul, Nat.reducePow, Nat.reduceMul]
  split_ifs <;> first | rfl | omega

theorem or_shiftLeft {result shift b : ℕ} (hresult : result < 2 ^ shift)
    (hfits : b * 2 ^ shift < 2 ^ 32) :
    result ||| (b <<< shift) % 2 ^ 32 = result + b * 2 ^ shift := by
  rw [Nat.shiftLeft_eq, Nat.mod_eq_of_lt hfits, Nat.or_comm, Nat.mul_comm,
    ← Nat.two_pow_add_eq_or_of_lt hresult, Nat.add_comm]

theorem getVarint32PtrFallback_last {n shift result v : ℕ} (hv : v < 128)
    (hresult : result < 2 ^ shift) (hfits : v * 2 ^ shift < 2 ^ 32) (rest : Slice) :
    getVarint32PtrFallback (n + 1) shift result (.ofNat v :: rest) =
      some (result + v * 2 ^ shift, rest) := by
  have hbyte : (UInt8.ofNat v).toNat = v := by
    rw [UInt8.toNat_ofNat']
    omega
  have hnot : ¬ (v &&& 128 ≠ 0) := by
    rw [not_not, and_128_eq_zero_iff (by omega)]
    exact hv
  rw [getVarint32PtrFallback, hbyte, if_neg hnot, or_shiftLeft hresult hfits]

theorem getVarint32PtrFallback_base128 {n shift result v : ℕ} (hv : v < 2 ^ (7 * (n + 1)))
    (hresult : result < 2 ^ shift) (hfits : v * 2 ^ shift < 2 ^ 32) (rest : Slice) :
    getVarint32PtrFallback (n + 1) shift result (base128 n v ++ rest) =
      some (result + v * 2 ^ shift, rest) := by
  induction n generalizing shift result v with
  | zero => exact getVarint32PtrFallback_last (by omega) hresult hfits rest
  | succ n ih =>
      rw [base128]
      by_cases hsmall : v < 128
      · rw [if_pos hsmall]
        exact getVarint32PtrFallback_last hsmall hresult hfits rest
      · have hbyte : (UInt8.ofNat (v % 128 + 128)).toNat = v % 128 + 128 := by
          rw [UInt8.toNat_ofNat']
          omega
        have hmore : v % 128 + 128 &&& 128 ≠ 0 := by
          rw [ne_eq, and_128_eq_zero_iff (by omega)]
          omega
        have hlow : v % 128 + 128 &&& 127 = v % 128 := by
          have hmask := Nat.and_two_pow_sub_one_eq_mod (v % 128 + 128) 7
          simpa using hmask
        have hsplit : v * 2 ^ shift = v % 128 * 2 ^ shift + v / 128 * 2 ^ (shift + 7) := by
          rw [Nat.pow_add]
          calc v * 2 ^ shift = (128 * (v / 128) + v % 128) * 2 ^ shift := by
                rw [Nat.div_add_mod]
            _ = v % 128 * 2 ^ shift + v / 128 * (2 ^ shift * 2 ^ 7) := by ring
        have hpow : 2 ^ (shift + 7) = 128 * 2 ^ shift := by
          rw [Nat.pow_add]
          ring
        have hdigit : v % 128 * 2 ^ shift ≤ 127 * 2 ^ shift :=
          Nat.mul_le_mul_right _ (by omega)
        have hdiv : v / 128 < 2 ^ (7 * (n + 1)) := by
          rw [Nat.div_lt_iff_lt_mul (by decide)]
          calc v < 2 ^ (7 * (n + 1 + 1)) := hv
            _ = 2 ^ (7 * (n + 1)) * 128 := by ring
        rw [if_neg hsmall, List.cons_append, getVarint32PtrFallback, hbyte, if_pos hmore, hlow,
          or_shiftLeft hresult (by omega), ih hdiv (by omega) (by omega), hsplit, Nat.add_assoc]

theorem reads_getVarint32 {v : ℕ} (h : v < 2 ^ 32) : Reads getVarint32 (encodeVarint32 v) v := by
  intro rest
  have hfallback : getVarint32PtrFallback 5 0 0 (encodeVarint32 v ++ rest) = some (v, rest) := by
    rw [encodeVarint32_eq_base128, getVarint32PtrFallback_base128 (by omega) (by decide) (by omega)]
    simp
  cases hbytes : encodeVarint32 v ++ rest with
  | nil => rwa [hbytes] at hfallback
  | cons byte p =>
      rw [hbytes] at hfallback
      rw [getVarint32]
      split
      · rename_i hlast
        -- The fast path is the first round of the loop.
        rw [getVarint32PtrFallback, if_neg (not_not.mpr hlast)] at hfallback
        simpa using hfallback
      · exact hfallback

def putLengthPrefixedSlice (value : Slice) : Slice :=
  encodeVarint32 (value.length % 2 ^ 32) ++ value

def getLengthPrefixedSlice : Parser UInt8 Slice := fun input =>
  (getVarint32 input).bind fun (len, input) =>
    if len ≤ input.length then some (input.take len, input.drop len) else none

theorem reads_getLengthPrefixedSlice {value : Slice} (h : value.length < 2 ^ 32) :
    Reads getLengthPrefixedSlice (putLengthPrefixedSlice value) value := by
  intro rest
  rw [getLengthPrefixedSlice, putLengthPrefixedSlice, Nat.mod_eq_of_lt h, List.append_assoc,
    reads_getVarint32 h (value ++ rest), Option.bind_some]
  simp

end Leveldb

end UnifyFramework
