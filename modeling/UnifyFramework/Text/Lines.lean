import Mathlib.Data.List.TakeWhile

/-!
# Lines of a text

A text of lines is built by ending every line with a separator, it is passed on with the last
separator taken away, and it is read by cutting it at the separators. What is read are the
lines again as long as no line holds the separator. If the text is passed on only up to the
first occurrence of some other symbol, as a C string is, then what is read are the lines
exactly when no line holds that symbol either.
-/

namespace Text

variable {α : Type*} [DecidableEq α]

def terminated (sep : α) (lines : List (List α)) : List α := lines.flatMap (· ++ [sep])

/-- The text up to the first occurrence of `stop`. -/
def upTo (stop : α) (text : List α) : List α := text.takeWhile (· ≠ stop)

/-- Every occurrence of `sep` is written as `as`. -/
def replaceAll (sep : α) (as : List α) (text : List α) : List α :=
  text.flatMap fun c => if c = sep then as else [c]

variable {sep stop : α} {lines : List (List α)} {text : List α}

theorem notMem_replaceAll {as : List α} (has : sep ∉ as) (text : List α) :
    sep ∉ replaceAll sep as text := by
  intro hmem
  obtain ⟨c, _, hc⟩ := List.mem_flatMap.mp hmem
  by_cases hsep : c = sep
  · rw [if_pos hsep] at hc
    exact has hc
  · rw [if_neg hsep, List.mem_singleton] at hc
    exact hsep hc.symm

theorem mem_replaceAll_iff {as : List α} {c : α} (hsep : c ≠ sep) (has : c ∉ as) :
    c ∈ replaceAll sep as text ↔ c ∈ text := by
  rw [replaceAll, List.mem_flatMap]
  constructor
  · rintro ⟨d, hd, hc⟩
    by_cases hdsep : d = sep
    · rw [if_pos hdsep] at hc
      exact absurd hc has
    · rw [if_neg hdsep, List.mem_singleton] at hc
      rwa [hc]
  · intro hc
    refine ⟨c, hc, ?_⟩
    rw [if_neg hsep, List.mem_singleton]

omit [DecidableEq α] in
theorem terminated_ne_nil (h : lines ≠ []) : terminated sep lines ≠ [] := by
  obtain ⟨line, rest, rfl⟩ := List.exists_cons_of_ne_nil h
  simp [terminated]

omit [DecidableEq α] in
theorem terminated_eq (h : lines ≠ []) :
    terminated sep lines = [sep].intercalate lines ++ [sep] := by
  induction lines with
  | nil => exact absurd rfl h
  | cons line rest ih =>
      cases rest with
      | nil => simp [terminated]
      | cons next rest =>
          rw [List.intercalate_cons_cons, List.append_assoc, ← ih (List.cons_ne_nil _ _)]
          rfl

omit [DecidableEq α] in
/-- Without the last separator the separators stand between the lines. -/
theorem dropLast_terminated (h : lines ≠ []) :
    (terminated sep lines).dropLast = [sep].intercalate lines := by
  rw [terminated_eq h, List.dropLast_concat]

omit [DecidableEq α] in
theorem mem_intercalate_iff {c : α} (hc : c ≠ sep) (lines : List (List α)) :
    c ∈ [sep].intercalate lines ↔ ∃ line ∈ lines, c ∈ line := by
  by_cases hlines : lines = []
  · simp [hlines]
  have hterm : c ∈ terminated sep lines ↔ ∃ line ∈ lines, c ∈ line := by
    simp [terminated, hc]
  rw [← hterm, terminated_eq hlines, List.mem_append, List.mem_singleton, or_iff_left hc]

theorem notMem_of_mem_splitOn {line : List α} (h : line ∈ text.splitOn sep) : sep ∉ line := by
  induction text generalizing line with
  | nil =>
      rw [List.splitOn_nil, List.mem_singleton] at h
      rw [h]
      exact List.not_mem_nil
  | cons c text ih =>
      rw [List.splitOn_cons_eq_if_modifyHead] at h
      obtain ⟨first, rest, hsplit⟩ := List.exists_cons_of_ne_nil (List.splitOn_ne_nil sep text)
      rw [hsplit] at h ih
      split_ifs at h with hc
      · rcases List.mem_cons.mp h with rfl | h
        · exact List.not_mem_nil
        · exact ih h
      · rcases List.mem_cons.mp h with rfl | h
        · intro hmem
          rcases List.mem_cons.mp hmem with rfl | hmem
          · exact hc (beq_self_eq_true _)
          · exact ih List.mem_cons_self hmem
        · exact ih (List.mem_cons_of_mem _ h)

theorem notMem_upTo (stop : α) (text : List α) : stop ∉ upTo stop text := by
  intro hmem
  simpa using List.mem_takeWhile_imp hmem

theorem upTo_eq_self_iff : upTo stop text = text ↔ stop ∉ text := by
  rw [upTo, List.takeWhile_eq_self_iff]
  constructor
  · intro h hstop
    simpa using h stop hstop
  · intro h c hc
    rw [decide_eq_true_eq]
    rintro rfl
    exact h hc

/-- The lines are read back exactly when the text is not cut. -/
theorem splitOn_upTo_iff (hne : lines ≠ []) (hsep : ∀ line ∈ lines, sep ∉ line)
    (hstop : stop ≠ sep) :
    (upTo stop ([sep].intercalate lines)).splitOn sep = lines ↔ ∀ line ∈ lines, stop ∉ line := by
  have hcut : (upTo stop ([sep].intercalate lines)).splitOn sep = lines ↔
      upTo stop ([sep].intercalate lines) = [sep].intercalate lines := by
    constructor
    · intro h
      have hjoin := congrArg [sep].intercalate h
      rwa [List.intercalate_splitOn] at hjoin
    · intro h
      rw [h, List.splitOn_intercalate sep hsep hne]
  rw [hcut, upTo_eq_self_iff, mem_intercalate_iff hstop]
  simp only [not_exists, not_and]

end Text
