import Mathlib.Data.Set.BooleanAlgebra
import Mathlib.Data.Set.Disjoint
import Mathlib.Order.CompletePartialOrder
import UnifyFramework.Parsing.Parser

/-!
# Parsers that look at nothing beyond what they consume

`Reads p u a` says that `p` reads the tokens `u` with the value `a`, whatever
follows them. `Exact p` says that every success of `p` is such a reading, so the
tokens it consumes already decide the outcome. The tokens read by an exact
parser form a prefix code, and an input that is extended on the right is read
the same way.

Sequence and fixed repetition keep exactness. Ordered choice and greedy
repetition keep it when one token of lookahead decides between the branches;
`FirstIn S p` records the tokens a success of `p` can begin with, and
`ExactFrom S p` joins the two facts.
-/

namespace Parsing

namespace Parser

universe u v

variable {τ : Type u} {α β : Type v}

/-- `p` reads exactly the tokens `u`, with the value `a`, whatever follows. -/
def Reads (p : Parser τ α) (u : List τ) (a : α) : Prop :=
  ∀ t, p (u ++ t) = some (a, t)

/-- Every success of `p` is decided by the tokens it consumes. -/
def Exact (p : Parser τ α) : Prop :=
  ∀ s a r, p s = some (a, r) → ∃ u, s = u ++ r ∧ Reads p u a

/-- Every success of `p` begins with a token of `S`. -/
def FirstIn (S : Set τ) (p : Parser τ α) : Prop :=
  ∀ s a r, p s = some (a, r) → ∃ c m, s = c :: m ∧ c ∈ S

/-- `p` is exact and its successes begin with a token of `S`. -/
structure ExactFrom (S : Set τ) (p : Parser τ α) : Prop where
  exact : Exact p
  first : FirstIn S p

theorem Reads.self {p : Parser τ α} {u : List τ} {a : α} (h : Reads p u a) :
    p u = some (a, []) := by
  have h' := h []
  rwa [List.append_nil] at h'

/-- What is behind a value that has been read goes to the next parser. -/
theorem Reads.bind_append {p : Parser τ α} {u : List τ} {a : α} (h : Reads p u a)
    (f : α → Parser τ β) (t : List τ) : (p >>= f) (u ++ t) = f a t := by
  rw [bind_apply, h t]
  rfl

theorem Reads.bind {p : Parser τ α} {f : α → Parser τ β} {u v : List τ} {a : α} {b : β}
    (hp : Reads p u a) (hf : Reads (f a) v b) : Reads (p >>= f) (u ++ v) b := by
  intro t
  rw [List.append_assoc, bind_apply, hp (v ++ t)]
  exact hf t

theorem reads_pure (a : α) : Reads (pure a : Parser τ α) [] a := fun _ => rfl

/-- The last step of a sequence often only packs the values read. -/
theorem Reads.bind_pure {p : Parser τ α} {f : α → β} {u : List τ} {a : α}
    (hp : Reads p u a) : Reads (p >>= fun x => pure (f x)) u (f a) := by
  have h := hp.bind (f := fun x => pure (f x)) (reads_pure (f a))
  rwa [List.append_nil] at h

theorem reads_satisfy {c : τ → Bool} {t : τ} (h : c t = true) : Reads (satisfy c) [t] t := by
  intro s
  rw [List.singleton_append, satisfy_cons, if_pos h]

theorem reads_count_satisfy {c : τ → Bool} :
    ∀ {u : List τ}, (∀ t ∈ u, c t = true) → Reads (count (satisfy c) u.length) u u
  | [], _ => reads_pure []
  | t :: u, h => by
      have ht : Reads (satisfy c) [t] t := reads_satisfy (h t List.mem_cons_self)
      have hu : Reads (count (satisfy c) u.length) u u :=
        reads_count_satisfy fun x hx => h x (List.mem_cons_of_mem t hx)
      exact ht.bind hu.bind_pure

theorem Reads.choice_left {p q : Parser τ α} {u : List τ} {a : α} (h : Reads p u a) :
    Reads (choice p q) u a :=
  fun t => choice_of_left (h t)

theorem Reads.choice_right {p q : Parser τ α} {S : Set τ} {c : τ} {u : List τ} {a : α}
    (hp : FirstIn S p) (hc : c ∉ S) (hq : Reads q (c :: u) a) :
    Reads (choice p q) (c :: u) a := by
  intro t
  rw [choice_of_right]
  · exact hq t
  · cases h : p ((c :: u) ++ t) with
    | none => rfl
    | some x =>
        obtain ⟨d, m, hd, hS⟩ := hp _ x.1 x.2 h
        obtain ⟨rfl, _⟩ := List.cons.inj hd
        exact absurd hS hc

theorem FirstIn.nil_eq_none {S : Set τ} {p : Parser τ α} (hp : FirstIn S p) : p [] = none := by
  cases h : p [] with
  | none => rfl
  | some x =>
      obtain ⟨c, m, hc, _⟩ := hp [] x.1 x.2 h
      cases hc

theorem FirstIn.cons_eq_none {S : Set τ} {p : Parser τ α} (hp : FirstIn S p) {c : τ}
    (hc : c ∉ S) (s : List τ) : p (c :: s) = none := by
  cases h : p (c :: s) with
  | none => rfl
  | some x =>
      obtain ⟨d, m, hd, hS⟩ := hp _ x.1 x.2 h
      obtain ⟨rfl, _⟩ := List.cons.inj hd
      exact absurd hS hc

theorem FirstIn.mono {S T : Set τ} {p : Parser τ α} (hp : FirstIn S p) (h : S ⊆ T) :
    FirstIn T p := by
  intro s a r hs
  obtain ⟨c, m, hc, hS⟩ := hp s a r hs
  exact ⟨c, m, hc, h hS⟩

theorem firstIn_satisfy (c : τ → Bool) : FirstIn {t | c t = true} (satisfy c) := by
  intro s t r h
  obtain ⟨hs, ht⟩ := (satisfy_eq_some_iff c s t r).mp h
  exact ⟨t, r, hs, ht⟩

theorem FirstIn.bind {S : Set τ} {p : Parser τ α} (hp : FirstIn S p) (f : α → Parser τ β) :
    FirstIn S (p >>= f) := by
  intro s b r h
  obtain ⟨a, m, hs, _⟩ := (bind_eq_some_iff p f s b r).mp h
  exact hp s a m hs

theorem FirstIn.choice {S T : Set τ} {p q : Parser τ α} (hp : FirstIn S p)
    (hq : FirstIn T q) : FirstIn (S ∪ T) (choice p q) := by
  intro s a r h
  rcases (choice_eq_some_iff p q s (a, r)).mp h with h | ⟨_, h⟩
  · exact hp.mono Set.subset_union_left s a r h
  · exact hq.mono Set.subset_union_right s a r h

/-- Tokens added on the right of an input that is read stay unread. -/
theorem Exact.append {p : Parser τ α} (hp : Exact p) {s r : List τ} {a : α}
    (h : p s = some (a, r)) (t : List τ) : p (s ++ t) = some (a, r ++ t) := by
  obtain ⟨u, rfl, hu⟩ := hp s a r h
  rw [List.append_assoc]
  exact hu (r ++ t)

theorem exact_pure (a : α) : Exact (pure a : Parser τ α) := by
  intro s b r h
  obtain ⟨rfl, rfl⟩ := Prod.mk.inj (Option.some.inj h)
  exact ⟨[], rfl, reads_pure a⟩

theorem exact_satisfy (c : τ → Bool) : Exact (satisfy c) := by
  intro s t r h
  obtain ⟨rfl, ht⟩ := (satisfy_eq_some_iff c s t r).mp h
  exact ⟨[t], rfl, reads_satisfy ht⟩

theorem Exact.bind {p : Parser τ α} {f : α → Parser τ β} (hp : Exact p)
    (hf : ∀ a, Exact (f a)) : Exact (p >>= f) := by
  intro s b r h
  obtain ⟨a, m, hs, hm⟩ := (bind_eq_some_iff p f s b r).mp h
  obtain ⟨u, rfl, hu⟩ := hp s a m hs
  obtain ⟨v, rfl, hv⟩ := hf a m b r hm
  exact ⟨u ++ v, (List.append_assoc u v r).symm, hu.bind hv⟩

theorem Exact.ite {c : Prop} [Decidable c] {p q : Parser τ α} (hp : Exact p) (hq : Exact q) :
    Exact (if c then p else q) := by
  split_ifs
  · exact hp
  · exact hq

theorem Exact.count {p : Parser τ α} (hp : Exact p) : ∀ n, Exact (count p n)
  | 0 => exact_pure []
  | n + 1 => hp.bind fun _ => (Exact.count hp n).bind fun _ => exact_pure _

/-- An exact parser whose successes begin with a token consumes that token. -/
theorem ExactFrom.progress {S : Set τ} {p : Parser τ α} (hp : ExactFrom S p) : Progress p := by
  intro s a r h
  obtain ⟨u, rfl, hu⟩ := hp.exact s a r h
  cases u with
  | nil =>
      have hnil := hu.self
      rw [hp.first.nil_eq_none] at hnil
      cases hnil
  | cons c u =>
      simp only [List.cons_append, List.length_cons, List.length_append]
      omega

theorem ExactFrom.mono {S T : Set τ} {p : Parser τ α} (hp : ExactFrom S p) (h : S ⊆ T) :
    ExactFrom T p :=
  ⟨hp.exact, hp.first.mono h⟩

theorem exactFrom_satisfy (c : τ → Bool) : ExactFrom {t | c t = true} (satisfy c) :=
  ⟨exact_satisfy c, firstIn_satisfy c⟩

theorem ExactFrom.bind {S : Set τ} {p : Parser τ α} {f : α → Parser τ β}
    (hp : ExactFrom S p) (hf : ∀ a, Exact (f a)) : ExactFrom S (p >>= f) :=
  ⟨hp.exact.bind hf, hp.first.bind f⟩

/-- Ordered choice between parsers that begin with different tokens. -/
theorem ExactFrom.choice {S T : Set τ} {p q : Parser τ α} (hp : ExactFrom S p)
    (hq : ExactFrom T q) (hST : Disjoint S T) : ExactFrom (S ∪ T) (choice p q) := by
  refine ⟨?_, hp.first.choice hq.first⟩
  intro s a r h
  rcases (choice_eq_some_iff p q s (a, r)).mp h with h | ⟨_, h⟩
  · obtain ⟨u, rfl, hu⟩ := hp.exact s a r h
    exact ⟨u, rfl, hu.choice_left⟩
  · obtain ⟨u, rfl, hu⟩ := hq.exact s a r h
    refine ⟨u, rfl, ?_⟩
    obtain ⟨c, m, rfl, hc⟩ := hq.first u a [] hu.self
    exact hu.choice_right hp.first (Set.disjoint_right.mp hST hc)

/-- The segments of a list of readings are read one after the other. -/
theorem many_reads {p : Parser τ α} (hp : Progress p) {us : List (List τ)} {as : List α}
    (h : List.Forall₂ (Reads p) us as) {t : List τ} (ht : p t = none) :
    many p (us.flatten ++ t) = some (as, t) := by
  induction h with
  | nil => exact many_of_none hp ht
  | cons hu _ ih =>
      rw [many_eq hp, List.flatten_cons, List.append_assoc, hu]
      simp only [ih, Option.map_some]

/-- What greedy repetition consumes splits into readings, and it stops where the
repeated parser fails. -/
theorem exists_reads_of_many {p : Parser τ α} (hp : Exact p) (hprog : Progress p) :
    ∀ (n : ℕ) (s : List τ) (as : List α) (m : List τ), s.length ≤ n →
      many p s = some (as, m) →
      ∃ us, List.Forall₂ (Reads p) us as ∧ s = us.flatten ++ m ∧ p m = none := by
  intro n
  induction n with
  | zero =>
      intro s as m hn h
      have hs : s = [] := List.length_eq_zero_iff.mp (Nat.le_zero.mp hn)
      subst hs
      have hnone : p [] = none := by
        cases hp' : p [] with
        | none => rfl
        | some x => exact absurd (hprog [] x.1 x.2 hp') (Nat.not_lt_zero _)
      rw [many_of_none hprog hnone] at h
      obtain ⟨rfl, rfl⟩ := Prod.mk.inj (Option.some.inj h)
      exact ⟨[], List.Forall₂.nil, rfl, hnone⟩
  | succ n ih =>
      intro s as m hn h
      cases hs : p s with
      | none =>
          rw [many_of_none hprog hs] at h
          obtain ⟨rfl, rfl⟩ := Prod.mk.inj (Option.some.inj h)
          exact ⟨[], List.Forall₂.nil, rfl, hs⟩
      | some x =>
          rw [many_eq hprog, hs] at h
          obtain ⟨y, hy, hyx⟩ := Option.map_eq_some_iff.mp h
          obtain ⟨rfl, rfl⟩ := Prod.mk.inj hyx
          have hlt := hprog s x.1 x.2 hs
          obtain ⟨us, hus, hsplit, hstop⟩ := ih x.2 y.1 y.2 (by omega) hy
          obtain ⟨u, hu, hread⟩ := hp s x.1 x.2 hs
          refine ⟨u :: us, List.Forall₂.cons hread hus, ?_, hstop⟩
          rw [List.flatten_cons, List.append_assoc, ← hsplit, hu]

theorem reads_many_bind {S : Set τ} {p : Parser τ α} {q : List α → Parser τ β}
    (hp : ExactFrom S p) {us : List (List τ)} {as : List α}
    (hus : List.Forall₂ (Reads p) us as) {c : τ} {v : List τ} {b : β} (hc : c ∉ S)
    (hq : Reads (q as) (c :: v) b) : Reads (many p >>= q) (us.flatten ++ c :: v) b := by
  intro t
  have hstop : p (c :: v ++ t) = none := hp.first.cons_eq_none hc (v ++ t)
  rw [List.append_assoc, bind_apply, many_reads hp.progress hus hstop]
  exact hq t

/-- Greedy repetition followed by a parser that begins with other tokens is
exact. -/
theorem ExactFrom.many_bind {S T : Set τ} {p : Parser τ α} {q : List α → Parser τ β}
    (hp : ExactFrom S p) (hq : ∀ as, ExactFrom T (q as)) (hST : Disjoint S T) :
    Exact (many p >>= q) := by
  intro s b r h
  obtain ⟨as, m, hmany, hm⟩ := (bind_eq_some_iff (many p) q s b r).mp h
  obtain ⟨us, hus, rfl, _⟩ :=
    exists_reads_of_many hp.exact hp.progress s.length s as m le_rfl hmany
  obtain ⟨v, rfl, hv⟩ := (hq as).exact m b r hm
  obtain ⟨c, w, rfl, hc⟩ := (hq as).first v b [] hv.self
  refine ⟨us.flatten ++ c :: w, (List.append_assoc _ _ _).symm, ?_⟩
  exact reads_many_bind hp hus (Set.disjoint_right.mp hST hc) hv

end Parser

end Parsing
