import Mathlib.Data.List.Nodup
import Mathlib.Logic.Function.Basic

/-!
# Tickets served in the order in which they were drawn

Threads draw tickets and have them served later, each thread holding at most one at
a time. `Tickets drawn served holding` relates the history of the tickets drawn, the
history of the tickets served and what the threads hold now: the tickets served are
the first ones that were drawn, and the others are the ones that are held. A thread
whose ticket is the oldest one that is held can have it served, and a single thread
is always in that position.
-/

namespace Transition

variable {τ α : Type*} {drawn : List (τ × α)} {served : List α} {holding : τ → Option α}

def Tickets (drawn : List (τ × α)) (served : List α) (holding : τ → Option α) : Prop :=
  ∃ done outstanding, drawn = done ++ outstanding ∧ done.map Prod.snd = served ∧
    (outstanding.map Prod.fst).Nodup ∧ ∀ t a, (t, a) ∈ outstanding ↔ holding t = some a

/-- The ticket that is to be served next belongs to `t`. -/
def Turn (drawn : List (τ × α)) (served : List α) (t : τ) : Prop :=
  drawn[served.length]?.map Prod.fst = some t

instance [DecidableEq τ] (drawn : List (τ × α)) (served : List α) (t : τ) :
    Decidable (Turn drawn served t) :=
  inferInstanceAs (Decidable (_ = _))

namespace Tickets

theorem init : Tickets [] [] (fun _ : τ => (none : Option α)) :=
  ⟨[], [], rfl, rfl, List.nodup_nil, by simp⟩

theorem served_of_drawn (h : Tickets drawn served holding) : served <+: drawn.map Prod.snd := by
  obtain ⟨done, outstanding, rfl, rfl, _, _⟩ := h
  rw [List.map_append]
  exact List.prefix_append _ _

theorem turn_iff {done outstanding : List (τ × α)} {t : τ} :
    Turn (done ++ outstanding) (done.map Prod.snd) t ↔ outstanding.head?.map Prod.fst = some t := by
  rw [Turn, List.length_map, List.getElem?_append_right (Nat.le_refl _), Nat.sub_self,
    List.head?_eq_getElem?]

theorem draw [DecidableEq τ] (h : Tickets drawn served holding) {t : τ} (ht : holding t = none)
    (a : α) : Tickets (drawn ++ [(t, a)]) served (Function.update holding t (some a)) := by
  obtain ⟨done, outstanding, rfl, rfl, hnodup, hmem⟩ := h
  have hfresh : t ∉ outstanding.map Prod.fst := by
    intro hin
    obtain ⟨⟨t', b⟩, hb, rfl⟩ := List.mem_map.mp hin
    rw [(hmem _ b).mp hb] at ht
    cases ht
  refine ⟨done, outstanding ++ [(t, a)], List.append_assoc _ _ _, rfl, ?_, ?_⟩
  · rw [List.map_append, List.nodup_append]
    refine ⟨hnodup, List.nodup_singleton _, ?_⟩
    intro x hx y hy hxy
    rw [List.map_singleton, List.mem_singleton] at hy
    rw [hxy, hy] at hx
    exact hfresh hx
  · intro t' b
    rw [List.mem_append, List.mem_singleton, hmem]
    by_cases heq : t' = t
    · subst heq
      simp [ht, eq_comm]
    · simp [heq]

theorem serve [DecidableEq τ] (h : Tickets drawn served holding) {t : τ} {a : α}
    (ht : holding t = some a) (hturn : Turn drawn served t) :
    Tickets drawn (served ++ [a]) (Function.update holding t none) := by
  obtain ⟨done, outstanding, rfl, rfl, hnodup, hmem⟩ := h
  rw [turn_iff] at hturn
  cases outstanding with
  | nil => cases hturn
  | cons x outstanding =>
      obtain ⟨holder, b⟩ := x
      have hholder : holder = t := Option.some.inj hturn
      subst hholder
      have hb : b = a := Option.some.inj (((hmem holder b).mp List.mem_cons_self).symm.trans ht)
      subst hb
      obtain ⟨hfresh, hnodup'⟩ := List.nodup_cons.mp hnodup
      refine ⟨done ++ [(holder, b)], outstanding, ?_, ?_, hnodup', ?_⟩
      · rw [List.append_assoc, List.singleton_append]
      · rw [List.map_append, List.map_singleton]
      · intro t c
        have hother := hmem t c
        rw [List.mem_cons, Prod.mk.injEq] at hother
        by_cases heq : t = holder
        · subst heq
          have hnot : (t, c) ∉ outstanding := fun hin => hfresh (List.mem_map.mpr ⟨_, hin, rfl⟩)
          simp [hnot]
        · rw [Function.update_of_ne heq, ← hother]
          simp [heq]

theorem turn_of_subsingleton [Subsingleton τ] (h : Tickets drawn served holding) {t : τ} {a : α}
    (ht : holding t = some a) : Turn drawn served t := by
  obtain ⟨done, outstanding, rfl, rfl, _, hmem⟩ := h
  rw [turn_iff]
  cases outstanding with
  | nil => exact absurd ((hmem t a).mpr ht) List.not_mem_nil
  | cons x outstanding => exact congrArg some (Subsingleton.elim x.1 t)

end Tickets

end Transition
