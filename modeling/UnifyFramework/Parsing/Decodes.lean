import Mathlib.Data.List.Forall2
import UnifyFramework.Parsing.Exact

/-!
# Writers whose output a parser may not know

A format and a parser for it need not agree everywhere. `Decodes p u ok a` says
what `p` does with the tokens `u` some writer produced: if the written value meets
`ok` then `p` reads `u` with the value `a`, and otherwise `p` refuses every input
that begins with `u`. Sequences, choices and repetitions of parsers decode what the
writers in sequence produce, under the conjunction of the conditions.
-/

namespace Parsing

namespace Parser

universe u v

variable {τ : Type u} {α β : Type v}

/-- `p` fails on every input that begins with `u`. -/
def Rejects (p : Parser τ α) (u : List τ) : Prop := ∀ t, p (u ++ t) = none

/-- `p` reads `u` with the value `a` under the condition `ok`, and rejects it
otherwise. -/
structure Decodes (p : Parser τ α) (u : List τ) (ok : Prop) (a : α) : Prop where
  reads : ok → Reads p u a
  rejects : ¬ ok → Rejects p u

theorem Rejects.bind_left {p : Parser τ α} {u : List τ} (h : Rejects p u) (v : List τ)
    (f : α → Parser τ β) : Rejects (p >>= f) (u ++ v) := by
  intro t
  rw [List.append_assoc]
  exact bind_eq_none_of_left f (h (v ++ t))

theorem Rejects.bind_right {p : Parser τ α} {f : α → Parser τ β} {u v : List τ} {a : α}
    (hp : Reads p u a) (hf : Rejects (f a) v) : Rejects (p >>= f) (u ++ v) := by
  intro t
  rw [List.append_assoc, bind_apply, hp (v ++ t)]
  exact hf t

theorem FirstIn.rejects {S : Set τ} {p : Parser τ α} (hp : FirstIn S p) {c : τ} (hc : c ∉ S)
    (u : List τ) : Rejects p (c :: u) :=
  fun t => hp.cons_eq_none hc (u ++ t)

theorem Reads.decodes {p : Parser τ α} {u : List τ} {ok : Prop} {a : α} (h : Reads p u a)
    (hok : ok) : Decodes p u ok a :=
  ⟨fun _ => h, fun hnot => absurd hok hnot⟩

theorem Rejects.decodes {p : Parser τ α} {u : List τ} {ok : Prop} (h : Rejects p u) (a : α)
    (hok : ¬ ok) : Decodes p u ok a :=
  ⟨fun h' => absurd h' hok, fun _ => h⟩

theorem Decodes.congr {p : Parser τ α} {u : List τ} {ok ok' : Prop} {a a' : α}
    (h : Decodes p u ok a) (hok : ok ↔ ok') (ha : ok' → a = a') : Decodes p u ok' a' :=
  ⟨fun h' => ha h' ▸ h.reads (hok.mpr h'), fun h' => h.rejects (mt hok.mp h')⟩

theorem Decodes.bind {p : Parser τ α} {f : α → Parser τ β} {u v : List τ} {ok ok' : Prop}
    {a : α} {b : β} (hp : Decodes p u ok a) (hf : Decodes (f a) v ok' b) :
    Decodes (p >>= f) (u ++ v) (ok ∧ ok') b := by
  refine ⟨fun h => (hp.reads h.1).bind (hf.reads h.2), fun h => ?_⟩
  by_cases hok : ok
  · exact Rejects.bind_right (hp.reads hok) (hf.rejects fun hok' => h ⟨hok, hok'⟩)
  · exact (hp.rejects hok).bind_left v f

/-- A step that reads its tokens whatever was written elsewhere adds no condition. -/
theorem Reads.bind_decodes {p : Parser τ α} {f : α → Parser τ β} {u v : List τ} {ok : Prop}
    {a : α} {b : β} (hp : Reads p u a) (hf : Decodes (f a) v ok b) :
    Decodes (p >>= f) (u ++ v) ok b :=
  ⟨fun h => hp.bind (hf.reads h), fun h => Rejects.bind_right hp (hf.rejects h)⟩

theorem Decodes.bind_pure {p : Parser τ α} {f : α → β} {u : List τ} {ok : Prop} {a : α}
    (hp : Decodes p u ok a) : Decodes (p >>= fun x => pure (f x)) u ok (f a) := by
  refine ⟨fun h => (hp.reads h).bind_pure, fun h => ?_⟩
  have hrej := (hp.rejects h).bind_left [] fun x => pure (f x)
  rwa [List.append_nil] at hrej

theorem Decodes.bind_reads {p : Parser τ α} {f : α → Parser τ β} {u v : List τ} {ok : Prop}
    {a : α} {b : β} (hp : Decodes p u ok a) (hf : Reads (f a) v b) :
    Decodes (p >>= f) (u ++ v) ok b :=
  ⟨fun h => (hp.reads h).bind hf, fun h => (hp.rejects h).bind_left v f⟩

section Many

variable {ι : Type*} {p : Parser τ α} {enc : ι → List τ} {ok : ι → Prop} {dec : ι → α}

theorem forall₂_reads (henc : ∀ x, Decodes p (enc x) (ok x) (dec x)) {xs : List ι}
    (h : ∀ x ∈ xs, ok x) : List.Forall₂ (Reads p) (xs.map enc) (xs.map dec) := by
  rw [List.forall₂_map_left_iff, List.forall₂_map_right_iff, List.forall₂_same]
  exact fun x hx => (henc x).reads (h x hx)

/-- Repetition stops in front of the first value that is refused. -/
theorem many_of_not_ok (hp : Progress p) (henc : ∀ x, Decodes p (enc x) (ok x) (dec x))
    {xs : List ι} (h : ¬ ∀ x ∈ xs, ok x) (t : List τ) :
    ∃ as x rest, many p ((xs.map enc).flatten ++ t) = some (as, enc x ++ rest) := by
  induction xs with
  | nil => exact absurd (fun x hx => absurd hx List.not_mem_nil) h
  | cons x xs ih =>
      rw [List.map_cons, List.flatten_cons, List.append_assoc]
      by_cases hx : ok x
      · have hxs : ¬ ∀ y ∈ xs, ok y := fun hall => h (List.forall_mem_cons.mpr ⟨hx, hall⟩)
        obtain ⟨as, y, rest, hmany⟩ := ih hxs
        refine ⟨dec x :: as, y, rest, ?_⟩
        rw [many_eq hp, (henc x).reads hx]
        simp only [hmany, Option.map_some]
      · exact ⟨[], x, _, many_of_none hp ((henc x).rejects hx _)⟩

/-- A list of values written one after the other and closed by `c :: v`. -/
theorem decodes_many_bind {q : List α → Parser τ β} {S T : Set τ} (hp : ExactFrom S p)
    (hq : ∀ as, FirstIn T (q as)) (henc : ∀ x, Decodes p (enc x) (ok x) (dec x))
    (hfirst : ∀ x, ∃ d w, enc x = d :: w ∧ d ∉ T) {xs : List ι} {c : τ} {v : List τ} {b : β}
    (hc : c ∉ S) (hend : Reads (q (xs.map dec)) (c :: v) b) :
    Decodes (many p >>= q) ((xs.map enc).flatten ++ c :: v) (∀ x ∈ xs, ok x) b := by
  refine ⟨fun h => reads_many_bind hp (forall₂_reads henc h) hc hend, fun h t => ?_⟩
  obtain ⟨as, x, rest, hmany⟩ := many_of_not_ok hp.progress henc h (c :: v ++ t)
  obtain ⟨d, w, hx, hd⟩ := hfirst x
  rw [List.append_assoc, bind_apply, hmany, hx]
  exact (hq as).cons_eq_none hd (w ++ rest)

end Many

end Parser

end Parsing
