import Mathlib.Data.Set.Prod
import UnifyFramework.Parsing.Exact

/-!
# Prefix codes and the tokens they begin with

The inputs that an exact parser reads to their end form a prefix code: whatever follows such
an input is left, and no proper initial part of it is accepted. Parsers are told apart by how
their inputs begin; where one token is not enough, `Opens S p` records the first two tokens of
what `p` accepts. `Consumes n p` bounds from below what a success takes away from the input.
-/

namespace Parsing

namespace Parser

universe u v

variable {τ : Type u} {α β : Type v}

def Accepts (p : Parser τ α) (s : List τ) : Prop := ∃ a r, p s = some (a, r)

/-- What is read of an input is read of every longer input as well, with the same value, and
no proper initial part of it is accepted. -/
def PrefixCode (p : Parser τ α) : Prop :=
  ∀ s a r, p s = some (a, r) → ∃ u, s = u ++ r ∧ (∀ t, p (s ++ t) = some (a, r ++ t)) ∧
    ∀ w, w <+: u → w ≠ u → ¬ Accepts p w

/-- Everything `p` accepts begins with two tokens of `S`. -/
def Opens (S : Set (τ × τ)) (p : Parser τ α) : Prop :=
  ∀ s, Accepts p s → ∃ c d m, s = c :: d :: m ∧ (c, d) ∈ S

/-- Every success of `p` takes at least `n` tokens away. -/
def Consumes (n : ℕ) (p : Parser τ α) : Prop :=
  ∀ s a r, p s = some (a, r) → r.length + n ≤ s.length

theorem Reads.eq_of_prefix {p : Parser τ α} {u w : List τ} {a b : α} (hu : Reads p u a)
    (hw : Reads p w b) (h : w <+: u) : w = u := by
  obtain ⟨x, rfl⟩ := h
  have hself := hu.self
  rw [hw x] at hself
  obtain ⟨_, rfl⟩ := Prod.mk.inj (Option.some.inj hself)
  exact (List.append_nil w).symm

theorem Exact.prefixCode {p : Parser τ α} (hp : Exact p) : PrefixCode p := by
  intro s a r h
  obtain ⟨u, hs, hu⟩ := hp s a r h
  refine ⟨u, hs, hp.append h, ?_⟩
  rintro w hwu hne ⟨b, r', hw⟩
  obtain ⟨w', rfl, hw'⟩ := hp w b r' hw
  -- what is read inside `w` is already all of `u`, so that nothing of `w` can be missing
  have heq : w' = u := hu.eq_of_prefix hw' ((List.prefix_append w' r').trans hwu)
  have hlen := hwu.length_le
  rw [heq, List.length_append] at hlen
  have hnil : r' = [] := List.eq_nil_of_length_eq_zero (by omega)
  exact hne (by rw [heq, hnil, List.append_nil])

theorem Opens.mono {S T : Set (τ × τ)} {p : Parser τ α} (hp : Opens S p) (h : S ⊆ T) :
    Opens T p := by
  intro s hs
  obtain ⟨c, d, m, hm, hS⟩ := hp s hs
  exact ⟨c, d, m, hm, h hS⟩

/-- One token, and then a parser that begins with one of `T`. -/
theorem opens_satisfy_bind {τ α : Type u} {c : τ → Bool} {f : τ → Parser τ α} {T : Set τ}
    (hf : ∀ a, FirstIn T (f a)) : Opens ({t | c t = true} ×ˢ T) (satisfy c >>= f) := by
  rintro s ⟨b, r, h⟩
  obtain ⟨a, m, hs, hm⟩ := (bind_eq_some_iff _ _ _ _ _).mp h
  obtain ⟨rfl, ha⟩ := (satisfy_eq_some_iff _ _ _ _).mp hs
  obtain ⟨d, m', rfl, hd⟩ := hf a m b r hm
  exact ⟨a, d, m', rfl, ha, hd⟩

/-- Greedy repetition in front of a parser: either one of the repeated tokens comes first, or
one that the parser begins with. -/
theorem ExactFrom.firstIn_many_bind {S T : Set τ} {p : Parser τ α} {q : List α → Parser τ β}
    (hp : ExactFrom S p) (hq : ∀ as, FirstIn T (q as)) : FirstIn (S ∪ T) (many p >>= q) := by
  intro s b r h
  obtain ⟨as, m, hmany, hm⟩ := (bind_eq_some_iff _ _ _ _ _).mp h
  cases hs : p s with
  | none =>
      rw [many_of_none hp.progress hs] at hmany
      obtain ⟨rfl, rfl⟩ := Prod.mk.inj (Option.some.inj hmany)
      exact (hq []).mono Set.subset_union_right s b r hm
  | some x => exact hp.first.mono Set.subset_union_left s x.1 x.2 hs

theorem Progress.consumes {p : Parser τ α} (hp : Progress p) : Consumes 1 p := hp

theorem consumes_pure (a : α) : Consumes 0 (pure a : Parser τ α) := by
  intro s b r h
  obtain ⟨_, rfl⟩ := Prod.mk.inj (Option.some.inj h)
  exact Nat.le_refl _

theorem Consumes.bind {m n : ℕ} {p : Parser τ α} {f : α → Parser τ β} (hp : Consumes m p)
    (hf : ∀ a, Consumes n (f a)) : Consumes (m + n) (p >>= f) := by
  intro s b r h
  obtain ⟨a, s', hs, hs'⟩ := (bind_eq_some_iff _ _ _ _ _).mp h
  have hm := hp s a s' hs
  have hn := hf a s' b r hs'
  omega

theorem Exact.exists_consumed {n : ℕ} {p : Parser τ α} (hp : Exact p) (h : Consumes n p)
    {s r : List τ} {a : α} (hs : p s = some (a, r)) : ∃ u, s = u ++ r ∧ n ≤ u.length := by
  obtain ⟨u, rfl, _⟩ := hp s a r hs
  have hlen := h _ a r hs
  rw [List.length_append] at hlen
  exact ⟨u, rfl, by omega⟩

theorem Exact.consumes_two {S : Set (τ × τ)} {p : Parser τ α} (hp : Exact p) (h : Opens S p) :
    Consumes 2 p := by
  intro s a r hs
  obtain ⟨u, rfl, hu⟩ := hp s a r hs
  obtain ⟨c, d, m, rfl, _⟩ := h u ⟨a, [], hu.self⟩
  simp only [List.cons_append, List.length_cons, List.length_append]
  omega

end Parser

end Parsing
