import Mathlib.Data.Set.Basic
import Mathlib.Data.List.Basic

/-!
# Parsers over token lists

`Parser τ α` reads a list of tokens from the left. It either fails, or returns
the value it read together with the tokens it has not looked at. The
combinators are the ones of a recursive descent library: sequence, ordered
choice, greedy repetition and repetition a fixed number of times.

Greedy repetition is run with the length of the input as its fuel. For a
parser that makes progress the fuel is never used up, and `many_eq` is the
unfolding equation of the loop.
-/

namespace Parsing

universe u v

/-- A parser returns the value it read and the tokens it left, or `none`. -/
def Parser (τ : Type u) (α : Type v) := List τ → Option (α × List τ)

namespace Parser

variable {τ : Type u} {α β : Type v}

protected def pure (a : α) : Parser τ α := fun s => some (a, s)

/-- Read with `p` and go on with what its value selects. -/
protected def bind (p : Parser τ α) (f : α → Parser τ β) : Parser τ β :=
  fun s => (p s).bind fun x => f x.1 x.2

instance : Monad (Parser τ) where
  pure := Parser.pure
  bind := Parser.bind

def satisfy (c : τ → Bool) : Parser τ τ
  | [] => none
  | t :: s => if c t then some (t, s) else none

/-- Ordered choice: the second parser runs only where the first fails. -/
def choice (p q : Parser τ α) : Parser τ α :=
  fun s => (p s).or (q s)

/-- The parser `p`, exactly `n` times. -/
def count (p : Parser τ α) : ℕ → Parser τ (List α)
  | 0 => pure []
  | n + 1 => do
      let a ← p
      let as ← count p n
      pure (a :: as)

def manyFuel (p : Parser τ α) : ℕ → List τ → List α × List τ
  | 0, s => ([], s)
  | n + 1, s =>
      match p s with
      | none => ([], s)
      | some (a, r) =>
          let rest := manyFuel p n r
          (a :: rest.1, rest.2)

/-- Greedy repetition: `p` as often as it succeeds, and never a failure. -/
def many (p : Parser τ α) : Parser τ (List α) :=
  fun s => some (manyFuel p s.length s)

/-- Every success of `p` leaves fewer tokens than it was given. -/
def Progress (p : Parser τ α) : Prop :=
  ∀ s a r, p s = some (a, r) → r.length < s.length

theorem bind_apply (p : Parser τ α) (f : α → Parser τ β) (s : List τ) :
    (p >>= f) s = (p s).bind fun x => f x.1 x.2 := rfl

theorem bind_eq_some_iff (p : Parser τ α) (f : α → Parser τ β)
    (s : List τ) (b : β) (r : List τ) :
    (p >>= f) s = some (b, r) ↔
      ∃ a m, p s = some (a, m) ∧ f a m = some (b, r) := by
  rw [bind_apply, Option.bind_eq_some_iff]
  exact ⟨fun ⟨x, hx, h⟩ => ⟨x.1, x.2, hx, h⟩, fun ⟨a, m, hp, h⟩ => ⟨(a, m), hp, h⟩⟩

theorem bind_eq_none_of_left {p : Parser τ α} (f : α → Parser τ β)
    {s : List τ} (h : p s = none) : (p >>= f) s = none := by
  rw [bind_apply, h]
  rfl

@[simp] theorem satisfy_nil (c : τ → Bool) : satisfy c [] = none := rfl

theorem satisfy_cons (c : τ → Bool) (t : τ) (s : List τ) :
    satisfy c (t :: s) = if c t then some (t, s) else none := rfl

theorem satisfy_eq_some_iff (c : τ → Bool) (s : List τ) (t : τ) (r : List τ) :
    satisfy c s = some (t, r) ↔ s = t :: r ∧ c t = true := by
  cases s with
  | nil => simp
  | cons x s =>
      rw [satisfy_cons]
      by_cases hx : c x = true
      · simp only [hx, if_true, Option.some.injEq, Prod.mk.injEq, List.cons.injEq]
        constructor
        · rintro ⟨rfl, rfl⟩
          exact ⟨⟨rfl, rfl⟩, hx⟩
        · rintro ⟨⟨rfl, rfl⟩, _⟩
          exact ⟨rfl, rfl⟩
      · simp only [hx]
        constructor
        · intro h
          cases h
        · rintro ⟨h, ht⟩
          obtain ⟨rfl, rfl⟩ := List.cons.inj h
          exact absurd ht hx

theorem choice_of_left {p q : Parser τ α} {s : List τ} {x : α × List τ}
    (h : p s = some x) : choice p q s = some x := by
  simp [choice, h]

theorem choice_of_right {p q : Parser τ α} {s : List τ} (h : p s = none) :
    choice p q s = q s := by
  simp [choice, h]

theorem choice_eq_some_iff (p q : Parser τ α) (s : List τ) (x : α × List τ) :
    choice p q s = some x ↔ p s = some x ∨ p s = none ∧ q s = some x := by
  simp [choice, Option.or_eq_some_iff]

theorem length_of_count {p : Parser τ α} {n : ℕ} {s r : List τ} {as : List α}
    (h : count p n s = some (as, r)) : as.length = n := by
  induction n generalizing s as with
  | zero =>
      cases h
      rfl
  | succ n ih =>
      obtain ⟨a, m, _, hrest⟩ := (bind_eq_some_iff _ _ _ _ _).mp h
      obtain ⟨as', m', has, hpure⟩ := (bind_eq_some_iff _ _ _ _ _).mp hrest
      cases hpure
      rw [List.length_cons, ih has]

/-- With a parser that makes progress, fuel beyond the length of the input
changes nothing. -/
theorem manyFuel_of_le {p : Parser τ α} (hp : Progress p) (n : ℕ) (s : List τ)
    (h : s.length ≤ n) : manyFuel p n s = manyFuel p s.length s := by
  induction n using Nat.strongRecOn generalizing s with
  | _ n ih =>
      cases n with
      | zero =>
          have hs : s.length = 0 := Nat.le_zero.mp h
          rw [hs]
      | succ n =>
          cases s with
          | nil =>
              cases hps : p [] with
              | none => simp [manyFuel, hps]
              | some x => exact absurd (hp [] x.1 x.2 hps) (Nat.not_lt_zero _)
          | cons t s =>
              simp only [List.length_cons, manyFuel]
              cases hps : p (t :: s) with
              | none => rfl
              | some x =>
                  have hlt : x.2.length < (t :: s).length := hp _ x.1 x.2 hps
                  simp only [List.length_cons] at h hlt
                  have hn := ih n (Nat.lt_succ_self n) x.2 (by omega)
                  have hs := ih s.length (by omega) x.2 (by omega)
                  simp only [hn, hs]

theorem many_eq {p : Parser τ α} (hp : Progress p) (s : List τ) :
    many p s =
      match p s with
      | none => some ([], s)
      | some (a, r) => (many p r).map fun x => (a :: x.1, x.2) := by
  cases hps : p s with
  | none =>
      cases s with
      | nil => rfl
      | cons t s => simp [many, manyFuel, hps]
  | some x =>
      have hlt := hp s x.1 x.2 hps
      cases s with
      | nil => exact absurd hlt (Nat.not_lt_zero _)
      | cons t s =>
          simp only [List.length_cons] at hlt
          simp only [many, List.length_cons, manyFuel, hps, Option.map_some]
          rw [manyFuel_of_le hp s.length x.2 (by omega)]

theorem many_of_none {p : Parser τ α} (hp : Progress p) {s : List τ} (h : p s = none) :
    many p s = some ([], s) := by
  rw [many_eq hp, h]

end Parser

end Parsing
