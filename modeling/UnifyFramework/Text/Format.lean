import Mathlib.Data.List.Basic

/-!
# Format strings without arguments

A text that is used as a format string is copied symbol by symbol, except that a conversion
symbol followed by another one gives one of them. Followed by anything else, or by nothing, it
asks for an argument; without arguments the result is then not defined. A text comes out of this
as it is exactly when it has no conversion symbol in it.
-/

namespace Text

variable {α : Type*} [DecidableEq α]

def expand (pct : α) : List α → Option (List α)
  | [] => some []
  | [c] => if c = pct then none else some [c]
  | c :: d :: format =>
      if c = pct then if d = pct then (expand pct format).map (pct :: ·) else none
      else (expand pct (d :: format)).map (c :: ·)

variable {pct : α} {format text : List α}

theorem expand_cons_of_ne {c : α} (hc : c ≠ pct) (format : List α) :
    expand pct (c :: format) = (expand pct format).map (c :: ·) := by
  cases format with
  | nil => simp [expand, hc]
  | cons d format => rw [expand, if_neg hc]

theorem expand_of_notMem (h : pct ∉ format) : expand pct format = some format := by
  induction format with
  | nil => rfl
  | cons c format ih =>
      rw [List.mem_cons, not_or] at h
      rw [expand_cons_of_ne (Ne.symm h.1), ih h.2, Option.map_some]

theorem length_add_count_of_expand (h : expand pct format = some text) :
    text.length + text.count pct = format.length := by
  fun_induction expand pct format generalizing text with
  | case1 =>
      cases h
      rfl
  | case2 => cases h
  | case3 c hc =>
      cases h
      rw [List.count_singleton, if_neg (by simpa using hc)]
      rfl
  | case4 format ih =>
      obtain ⟨rest, hrest, rfl⟩ := Option.map_eq_some_iff.mp h
      have hlen := ih hrest
      rw [List.count_cons_self, List.length_cons, List.length_cons, List.length_cons]
      omega
  | case5 d format hd => cases h
  | case6 c d format hc ih =>
      obtain ⟨rest, hrest, rfl⟩ := Option.map_eq_some_iff.mp h
      rw [List.count_cons_of_ne hc, List.length_cons, List.length_cons, ← ih hrest]
      omega

/-- A text comes out as it is exactly when it has no conversion symbol, also if what comes out
is cut to a length that the text itself does not reach. -/
theorem take_expand_iff {n : ℕ} (h : text.length ≤ n) :
    (expand pct text).map (List.take n) = some text ↔ pct ∉ text := by
  constructor
  · intro hexpand
    obtain ⟨out, hout, htake⟩ := Option.map_eq_some_iff.mp hexpand
    have hlen := length_add_count_of_expand hout
    have hle : text.length ≤ out.length := by
      rw [← htake, List.length_take]
      exact Nat.min_le_right _ _
    have hsame : out = text := by
      rw [← htake, List.take_of_length_le (by omega)]
    rw [hsame] at hlen
    exact List.count_eq_zero.mp (by omega)
  · intro hpct
    rw [expand_of_notMem hpct, Option.map_some, List.take_of_length_le h]

end Text
