import Mathlib.Data.List.Basic
import Mathlib.Logic.Function.Basic
import Mathlib.Logic.Relation
import UnifyFramework.Transition.Run

/-!
# Threads that take locks in order

Threads share some data and a number of locks, each of which is free or owned by one thread.
A thread is the list of instructions it has still to execute. It locks, it unlocks, and it
acts on the data, and an act is replaced by the instructions that come of it. A thread that
is to lock what is owned has to wait for the owner, also where it is the owner itself.

`after rank keeps held code` follows the locks that a thread holds through its code. It asks
that a lock is taken only above the locks that are held, in the order of their ranks, and that
the locks are given back in the opposite order; what an act does to the locks is prescribed by
`keeps`. As long as all the threads keep to this discipline, the threads never wait for each
other in a circle.

`Alone exec e` is what a thread does to the data while no other thread runs.
-/

namespace Transition

namespace Locking

inductive Instr (μ α : Type*)
  | lock (m : μ)
  | unlock (m : μ)
  | act (a : α)
  deriving DecidableEq

structure State (τ μ α σ : Type*) where
  data : σ
  owner : μ → Option τ
  code : τ → List (Instr μ α)

variable {τ μ α σ ε : Type*} [DecidableEq τ] [DecidableEq μ]

def advance (exec : σ → α → ε → σ × List (Instr μ α)) (s : State τ μ α σ) (t : τ) (e : ε) :
    Option (State τ μ α σ) :=
  match s.code t with
  | [] => none
  | .lock m :: rest =>
      if s.owner m = none then
        some ⟨s.data, Function.update s.owner m (some t), Function.update s.code t rest⟩
      else none
  | .unlock m :: rest =>
      if s.owner m = some t then
        some ⟨s.data, Function.update s.owner m none, Function.update s.code t rest⟩
      else none
  | .act a :: rest =>
      some ⟨(exec s.data a e).1, s.owner,
        Function.update s.code t ((exec s.data a e).2 ++ rest)⟩

/-- A thread that has nothing to do is given something. -/
def start (s : State τ μ α σ) (t : τ) (code : List (Instr μ α)) : Option (State τ μ α σ) :=
  if s.code t = [] then some ⟨s.data, s.owner, Function.update s.code t code⟩ else none

namespace State

def Wants (s : State τ μ α σ) (t : τ) (m : μ) : Prop := (s.code t).head? = some (.lock m)

instance [DecidableEq α] (s : State τ μ α σ) (t : τ) (m : μ) : Decidable (s.Wants t m) :=
  inferInstanceAs (Decidable (_ = _))

/-- The thread is about to take a lock that `u` owns. -/
def WaitsFor (s : State τ μ α σ) (t u : τ) : Prop := ∃ m, s.Wants t m ∧ s.owner m = some u

/-- No thread is about to take a lock it owns, and no two threads wait for each other. -/
structure DeadlockFree (s : State τ μ α σ) : Prop where
  self : ∀ t m, s.Wants t m → s.owner m ≠ some t
  pair : ∀ t u, s.WaitsFor t u → ¬ s.WaitsFor u t

end State

/-- The locks that are held after the code, the last one first, if the code keeps to the
order. -/
def after (rank : μ → ℕ) (keeps : α → List μ → Option (List μ)) :
    List μ → List (Instr μ α) → Option (List μ)
  | held, [] => some held
  | held, .lock m :: code =>
      if ∀ h ∈ held, rank h < rank m then after rank keeps (m :: held) code else none
  | [], .unlock _ :: _ => none
  | h :: held, .unlock m :: code => if h = m then after rank keeps held code else none
  | held, .act a :: code => (keeps a held).bind fun held' => after rank keeps held' code

variable {rank : μ → ℕ} {keeps : α → List μ → Option (List μ)}

omit [DecidableEq τ] in
theorem after_append (held : List μ) (code rest : List (Instr μ α)) :
    after rank keeps held (code ++ rest) =
      (after rank keeps held code).bind fun held' => after rank keeps held' rest := by
  induction code generalizing held with
  | nil => cases rest <;> cases held <;> rfl
  | cons i code ih =>
      cases i with
      | lock m =>
          simp only [List.cons_append, after]
          split_ifs
          · exact ih _
          · rfl
      | unlock m =>
          cases held with
          | nil => rfl
          | cons h held =>
              simp only [List.cons_append, after]
              split_ifs
              · exact ih _
              · rfl
      | act a =>
          simp only [List.cons_append, after, Option.bind_assoc]
          exact congrArg _ (funext fun held' => ih held')

omit [DecidableEq τ] in
theorem after_flatMap {β : Type*} {held : List μ} {l : List β} {f : β → List (Instr μ α)}
    (h : ∀ x ∈ l, after rank keeps held (f x) = some held) :
    after rank keeps held (l.flatMap f) = some held := by
  induction l with
  | nil => cases held <;> rfl
  | cons x l ih =>
      obtain ⟨hx, hl⟩ := List.forall_mem_cons.mp h
      rw [List.flatMap_cons, after_append, hx, Option.bind_some, ih hl]

def Disciplined (rank : μ → ℕ) (keeps : α → List μ → Option (List μ)) (s : State τ μ α σ) :
    Prop :=
  ∃ held : τ → List μ, (∀ t m, s.owner m = some t ↔ m ∈ held t) ∧
    (∀ t, (held t).Pairwise fun a b => rank b < rank a) ∧
    ∀ t, after rank keeps (held t) (s.code t) = some []

namespace Disciplined

variable {s s' : State τ μ α σ} {t : τ}

omit [DecidableEq τ] in
theorem of_idle (howner : ∀ m, s.owner m = none) (hcode : ∀ t, s.code t = []) :
    Disciplined rank keeps s := by
  refine ⟨fun _ => [], fun t m => ?_, fun _ => .nil, fun t => ?_⟩
  · simp [howner m]
  · rw [hcode t]
    rfl

/-- What one thread does does not matter to the code of the others. -/
theorem after_update {held : τ → List μ} {codes : τ → List (Instr μ α)} {own : List μ}
    {code : List (Instr μ α)} (hafter : ∀ u, after rank keeps (held u) (codes u) = some [])
    (hown : after rank keeps own code = some []) (u : τ) :
    after rank keeps (Function.update held t own u) (Function.update codes t code u) =
      some [] := by
  by_cases hu : u = t
  · rw [hu, Function.update_self, Function.update_self, hown]
  · rw [Function.update_of_ne hu, Function.update_of_ne hu, hafter u]

/-- Only the thread `t` and the lock `m` are concerned when `m` gets another owner. -/
theorem owner_update {held : τ → List μ} {m : μ} {new : Option τ} {own : List μ}
    (howner : ∀ u n, s.owner n = some u ↔ n ∈ held u)
    (hothers : ∀ n, n ≠ m → (n ∈ own ↔ n ∈ held t))
    (hlock : ∀ u, new = some u ↔ m ∈ Function.update held t own u) (u : τ) (n : μ) :
    Function.update s.owner m new n = some u ↔ n ∈ Function.update held t own u := by
  by_cases hn : n = m
  · rw [hn, Function.update_self]
    exact hlock u
  · rw [Function.update_of_ne hn, howner]
    by_cases hu : u = t
    · rw [hu, Function.update_self]
      exact (hothers n hn).symm
    · rw [Function.update_of_ne hu]

theorem start {code : List (Instr μ α)} (h : Disciplined rank keeps s)
    (hcode : after rank keeps [] code = some []) (hs : start s t code = some s') :
    Disciplined rank keeps s' := by
  obtain ⟨held, howner, hordered, hafter⟩ := h
  rw [Locking.start] at hs
  split_ifs at hs with hidle
  obtain rfl := Option.some.inj hs
  have hnone : held t = [] := by
    have hheld := hafter t
    rw [hidle, after] at hheld
    exact Option.some.inj hheld
  have hnew : after rank keeps (held t) code = some [] := by rw [hnone, hcode]
  refine ⟨held, howner, hordered, fun u => ?_⟩
  have hupdate := after_update hafter hnew (t := t) u
  rwa [Function.update_eq_self] at hupdate

theorem lock {m : μ} {rest : List (Instr μ α)} (h : Disciplined rank keeps s)
    (hcode : s.code t = .lock m :: rest) (hfree : s.owner m = none) :
    Disciplined rank keeps
      (⟨s.data, Function.update s.owner m (some t), Function.update s.code t rest⟩ :
        State τ μ α σ) := by
  obtain ⟨held, howner, hordered, hafter⟩ := h
  have habove := hafter t
  rw [hcode, after] at habove
  split_ifs at habove with hrank
  refine ⟨Function.update held t (m :: held t), owner_update howner ?_ ?_, ?_,
    after_update hafter habove⟩
  · intro n hn
    simp [hn]
  · intro u
    by_cases hu : u = t
    · simp [hu]
    · have hout : m ∉ held u := by
        rw [← howner, hfree]
        simp
      simp [Function.update_of_ne hu, hout, Ne.symm hu]
  · exact (Function.forall_update_iff held fun _ l => l.Pairwise fun a b => rank b < rank a).mpr
      ⟨List.pairwise_cons.mpr ⟨hrank, hordered t⟩, fun u _ => hordered u⟩

theorem unlock {m : μ} {rest : List (Instr μ α)} (h : Disciplined rank keeps s)
    (hcode : s.code t = .unlock m :: rest) (hown : s.owner m = some t) :
    Disciplined rank keeps
      (⟨s.data, Function.update s.owner m none, Function.update s.code t rest⟩ :
        State τ μ α σ) := by
  obtain ⟨held, howner, hordered, hafter⟩ := h
  have hlast := hafter t
  rw [hcode] at hlast
  obtain ⟨below, hheld, hrest⟩ :
      ∃ below, held t = m :: below ∧ after rank keeps below rest = some [] := by
    cases hheld : held t with
    | nil =>
        rw [hheld] at hlast
        cases hlast
    | cons n below =>
        rw [hheld, after] at hlast
        split_ifs at hlast with hnm
        exact ⟨below, by rw [hnm], hlast⟩
  have hpairwise := hordered t
  rw [hheld, List.pairwise_cons] at hpairwise
  have hgone : m ∉ below := fun hm => absurd (hpairwise.1 m hm) (Nat.lt_irrefl _)
  refine ⟨Function.update held t below, owner_update howner ?_ ?_, ?_, after_update hafter hrest⟩
  · intro n hn
    simp [hheld, hn]
  · intro u
    by_cases hu : u = t
    · simp [hu, hgone]
    · have hout : m ∉ held u := by
        rw [← howner, hown]
        simp [Ne.symm hu]
      simp [Function.update_of_ne hu, hout]
  · exact (Function.forall_update_iff held fun _ l => l.Pairwise fun a b => rank b < rank a).mpr
      ⟨hpairwise.2, fun u _ => hordered u⟩

/-- An act may be replaced by code that does to the locks what the act is allowed to do. -/
theorem act {a : α} {data : σ} {code rest : List (Instr μ α)} (h : Disciplined rank keeps s)
    (hcode : s.code t = .act a :: rest)
    (hkeeps : ∀ held held', (∀ m, s.owner m = some t ↔ m ∈ held) → keeps a held = some held' →
      after rank keeps held code = some held') :
    Disciplined rank keeps
      (⟨data, s.owner, Function.update s.code t (code ++ rest)⟩ : State τ μ α σ) := by
  obtain ⟨held, howner, hordered, hafter⟩ := h
  have hact := hafter t
  rw [hcode, after] at hact
  obtain ⟨held', hheld', hrest⟩ := Option.bind_eq_some_iff.mp hact
  have hnew : after rank keeps (held t) (code ++ rest) = some [] := by
    rw [after_append, hkeeps (held t) held' (howner t) hheld', Option.bind_some, hrest]
  refine ⟨held, howner, hordered, fun u => ?_⟩
  have hupdate := after_update hafter hnew (t := t) u
  rwa [Function.update_eq_self] at hupdate

/-- Every step keeps the discipline if the acts do what they are allowed to do. -/
theorem advance {exec : σ → α → ε → σ × List (Instr μ α)} {e : ε}
    (h : Disciplined rank keeps s)
    (hkeeps : ∀ a rest held held', s.code t = .act a :: rest →
      (∀ m, s.owner m = some t ↔ m ∈ held) → keeps a held = some held' →
        after rank keeps held (exec s.data a e).2 = some held')
    (hs : advance exec s t e = some s') : Disciplined rank keeps s' := by
  rw [Locking.advance] at hs
  split at hs
  · cases hs
  · next m rest hcode =>
      split_ifs at hs with hfree
      obtain rfl := Option.some.inj hs
      exact h.lock hcode hfree
  · next m rest hcode =>
      split_ifs at hs with hown
      obtain rfl := Option.some.inj hs
      exact h.unlock hcode hown
  · next a rest hcode =>
      obtain rfl := Option.some.inj hs
      exact h.act hcode fun held held' howner => hkeeps a rest held held' hcode howner

omit [DecidableEq τ] in
theorem lt_of_wants {m n : μ} (h : Disciplined rank keeps s) (hwants : s.Wants t m)
    (hown : s.owner n = some t) : rank n < rank m := by
  obtain ⟨held, howner, _, hafter⟩ := h
  obtain ⟨rest, hcode⟩ := List.head?_eq_some_iff.mp hwants
  have habove := hafter t
  rw [hcode, after] at habove
  split_ifs at habove with hrank
  exact hrank n ((howner t n).mp hown)

omit [DecidableEq τ] in
theorem wants_of_transGen {u : τ} (h : Disciplined rank keeps s)
    (hwaits : Relation.TransGen s.WaitsFor t u) :
    ∃ m n, s.Wants t m ∧ s.owner n = some u ∧ rank m ≤ rank n := by
  induction hwaits with
  | single hwaits =>
      obtain ⟨m, hwants, hown⟩ := hwaits
      exact ⟨m, m, hwants, hown, Nat.le_refl _⟩
  | tail _ hwaits ih =>
      obtain ⟨m, n, hwants, hown, hle⟩ := ih
      obtain ⟨n', hwants', hown'⟩ := hwaits
      exact ⟨m, n', hwants, hown', Nat.le_trans hle (Nat.le_of_lt (h.lt_of_wants hwants' hown))⟩

omit [DecidableEq τ] in
/-- The threads never wait for each other in a circle. -/
theorem not_transGen_self (h : Disciplined rank keeps s) (t : τ) :
    ¬ Relation.TransGen s.WaitsFor t t := by
  intro hwaits
  obtain ⟨m, n, hwants, hown, hle⟩ := h.wants_of_transGen hwaits
  exact absurd (h.lt_of_wants hwants hown) (Nat.not_lt_of_le hle)

omit [DecidableEq τ] in
theorem deadlockFree (h : Disciplined rank keeps s) : s.DeadlockFree where
  self t m hwants hown := h.not_transGen_self t (.single ⟨m, hwants, hown⟩)
  pair t _ htu hut := h.not_transGen_self t (.tail (.single htu) hut)

end Disciplined

inductive Alone (exec : σ → α → ε → σ × List (Instr μ α)) (e : ε) :
    σ × List (Instr μ α) → σ × List (Instr μ α) → Prop
  | lock (d : σ) (m : μ) (rest : List (Instr μ α)) : Alone exec e (d, .lock m :: rest) (d, rest)
  | unlock (d : σ) (m : μ) (rest : List (Instr μ α)) :
      Alone exec e (d, .unlock m :: rest) (d, rest)
  | act (d : σ) (a : α) (rest : List (Instr μ α)) :
      Alone exec e (d, .act a :: rest) ((exec d a e).1, (exec d a e).2 ++ rest)

section Alone

variable {exec : σ → α → ε → σ × List (Instr μ α)} {e : ε}

omit [DecidableEq μ] in
theorem rightUnique_alone : Relator.RightUnique (Alone exec e) := by
  intro x y z hy hz
  cases hy <;> cases hz <;> rfl

theorem alone_of_advance {s s' : State τ μ α σ} {t : τ} (h : advance exec s t e = some s') :
    Alone exec e (s.data, s.code t) (s'.data, s'.code t) := by
  rw [advance] at h
  split at h
  · cases h
  · next m rest hcode =>
      split_ifs at h
      obtain rfl := Option.some.inj h
      simp only [hcode, Function.update_self]
      exact .lock _ _ _
  · next m rest hcode =>
      split_ifs at h
      obtain rfl := Option.some.inj h
      simp only [hcode, Function.update_self]
      exact .unlock _ _ _
  · next a rest hcode =>
      obtain rfl := Option.some.inj h
      simp only [hcode, Function.update_self]
      exact .act _ _ _

theorem alone_of_run {s s' : State τ μ α σ} {t : τ} {n : ℕ}
    (h : run (fun s (_ : Unit) => advance exec s t e) s (List.replicate n ()) = some s') :
    Relation.ReflTransGen (Alone exec e) (s.data, s.code t) (s'.data, s'.code t) := by
  induction n generalizing s with
  | zero =>
      obtain rfl := Option.some.inj h
      exact .refl
  | succ n ih =>
      rw [List.replicate_succ] at h
      obtain ⟨mid, hmid, hrest⟩ := run_cons_eq_some_iff.mp h
      exact .head (alone_of_advance hmid) (ih hrest)

/-- What a thread comes to by itself is what it comes to if it is not interrupted. -/
theorem data_of_run {s s' : State τ μ α σ} {t : τ} {n : ℕ} {d : σ}
    (hrun : run (fun s (_ : Unit) => advance exec s t e) s (List.replicate n ()) = some s')
    (hend : s'.code t = [])
    (h : Relation.ReflTransGen (Alone exec e) (s.data, s.code t) (d, [])) : s'.data = d := by
  have hstop : ∀ {d d' : σ}, Relation.ReflTransGen (Alone exec e) (d, []) (d', []) → d = d' := by
    intro d d' h
    rcases h.cases_head with heq | ⟨_, hstep, _⟩
    · exact (Prod.mk.inj heq).1
    · cases hstep
  have hown := alone_of_run hrun
  rw [hend] at hown
  rcases Relation.ReflTransGen.total_of_right_unique rightUnique_alone hown h with hto | hfrom
  · exact hstop hto
  · exact (hstop hfrom).symm

end Alone

end Locking

end Transition
