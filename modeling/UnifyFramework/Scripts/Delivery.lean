import Mathlib.Data.Nat.Init
import UnifyFramework.Scripts.Notification

/-!
# Delivery to observers that change the observers

`notifyJs` enumerates the array under a name with `for (var i in obs)`. Duktape fixes the
indices when the loop starts and passes by those that are gone when their turn comes, while
`obs[i]` is read from the array as it is then. A handler that registers or removes observers
under the same name changes that very array. A registration behind the loop moves up by one
for every registration that is taken out at or before the place of the loop, and is passed
over if it comes to stand before the next place.

`Complete` is what delivery should be: the calls are in the order of the registrations, none
is made while an earlier registration from the start is still waiting, and none is waiting at
the end. It holds exactly when every handler leaves the registrations up to its own alone, or
leaves none from the start waiting.
-/

namespace UnifyFramework

namespace Scripts

open UnifyFramework.Notification

inductive Change
  | addObserver (observer : ℕ)
  | removeObserver (observer : ℕ)
  deriving DecidableEq, Repr

structure Reaction where
  changes : List Change
  throws : Bool

/-- What the handlers do: they may look at all the calls made so far, of which the last is
the one they answer. -/
abbrev Handlers := List Registration → Reaction

def ObserverList.change (name : String) (l : ObserverList) : Change → ObserverList
  | .addObserver observer => l.push name observer
  | .removeObserver observer => l.remove observer

def ObserverList.changeAll (name : String) : List Change → ObserverList → ObserverList
  | [], l => l
  | c :: changes, l => changeAll name changes (l.change name c)

/-- The state of `notifyJs`: the observers, the registrations called so far, and whether a
handler has thrown. -/
structure Delivery where
  obs : ObserverList
  calls : List Registration
  thrown : Bool

def Delivery.turn (name : String) (handlers : Handlers) (d : Delivery) (i : ℕ) : Delivery :=
  if d.thrown then d
  else
    match d.obs.entries[i]? with
    | none => d
    | some r =>
        ⟨d.obs.changeAll name (handlers (d.calls ++ [r])).changes, d.calls ++ [r],
          (handlers (d.calls ++ [r])).throws⟩

/-- The first passes over the observers `l`. -/
def turns (name : String) (handlers : Handlers) (l : ObserverList) : ℕ → Delivery
  | 0 => ⟨l, [], false⟩
  | i + 1 => (turns name handlers l i).turn name handlers i

/-- The loop has as many passes as there were observers at its start. -/
def notifyJs (name : String) (handlers : Handlers) (l : ObserverList) : Delivery :=
  turns name handlers l l.entries.length

/-- A registration from the start that is still registered and has not been called. -/
def Waiting (l : ObserverList) (d : Delivery) (r : Registration) : Prop :=
  r ∈ l.entries ∧ r ∈ d.obs.entries ∧ r ∉ d.calls

instance (l : ObserverList) (d : Delivery) (r : Registration) : Decidable (Waiting l d r) :=
  inferInstanceAs (Decidable (_ ∧ _ ∧ _))

structure Complete (name : String) (handlers : Handlers) (l : ObserverList) : Prop where
  registered : ∀ i r, (turns name handlers l (i + 1)).calls =
    (turns name handlers l i).calls ++ [r] → r ∈ (turns name handlers l i).obs.entries
  once : (notifyJs name handlers l).calls.Pairwise fun r r' => r.id < r'.id
  inTurn : ∀ i < l.entries.length, ∀ r, (turns name handlers l (i + 1)).calls =
    (turns name handlers l i).calls ++ [r] →
      ∀ r', Waiting l (turns name handlers l i) r' → r.id ≤ r'.id
  all : ∀ r, ¬ Waiting l (notifyJs name handlers l) r

/-- `removeObserver` leaves the first `k` registrations alone. -/
def Leaves (k : ℕ) (l : ObserverList) : Change → Prop
  | .addObserver _ => True
  | .removeObserver observer =>
      (∀ r ∈ l.entries.take k, isFor observer r = false) ∧
        l.entries.countP (isFor observer) ≤ 1

instance decidableLeaves (k : ℕ) (l : ObserverList) : (c : Change) → Decidable (Leaves k l c)
  | .addObserver _ => inferInstanceAs (Decidable True)
  | .removeObserver _ => inferInstanceAs (Decidable ((∀ _ ∈ _, _) ∧ _))

/-- All the changes do, each in the observers that the ones before it have left. -/
def LeavesAll (name : String) (k : ℕ) : List Change → ObserverList → Prop
  | [], _ => True
  | c :: changes, l => Leaves k l c ∧ LeavesAll name k changes (l.change name c)

instance decidableLeavesAll (name : String) (k : ℕ) :
    (changes : List Change) → (l : ObserverList) → Decidable (LeavesAll name k changes l)
  | [], _ => inferInstanceAs (Decidable True)
  | c :: changes, l =>
      have := decidableLeavesAll name k changes (l.change name c)
      inferInstanceAs (Decidable (_ ∧ _))

/-- The handler called in the pass with index `i` leaves the registrations up to its own
alone and does not throw, or leaves no registration from the start that has not been called. -/
def Spares (name : String) (handlers : Handlers) (l : ObserverList) (d : Delivery) (i : ℕ) : Prop :=
  d.thrown = false → ∀ r ∈ d.obs.entries[i]?,
    (LeavesAll name (i + 1) (handlers (d.calls ++ [r])).changes d.obs ∧
      (handlers (d.calls ++ [r])).throws = false) ∨
    ∀ r' ∈ l.entries,
      r' ∈ (d.obs.changeAll name (handlers (d.calls ++ [r])).changes).entries → r' ∈ d.calls ++ [r]

instance (name : String) (handlers : Handlers) (l : ObserverList) (d : Delivery) (i : ℕ) :
    Decidable (Spares name handlers l d i) :=
  inferInstanceAs (Decidable (_ → ∀ _ ∈ _, (_ ∧ _) ∨ ∀ _ ∈ _, _ → _))

/-- How many registrations have a number below `m`. -/
def below (m : ℕ) (entries : List Registration) : ℕ := entries.countP fun r => r.id < m

theorem below_cons (m : ℕ) (a : Registration) (entries : List Registration) :
    below m (a :: entries) = below m entries + if a.id < m then 1 else 0 := by
  simp [below, List.countP_cons]

theorem below_append (m : ℕ) (entries entries' : List Registration) :
    below m (entries ++ entries') = below m entries + below m entries' :=
  List.countP_append

theorem below_eq_zero_iff {m : ℕ} {entries : List Registration} :
    below m entries = 0 ↔ ∀ r ∈ entries, m ≤ r.id := by
  simp [below, List.countP_eq_zero]

/-- In the order of the numbers, those below `m` come first. -/
theorem split_below (m : ℕ) {entries : List Registration}
    (h : entries.Pairwise fun r r' => r.id < r'.id) :
    (∀ r ∈ entries.take (below m entries), r.id < m) ∧
      ∀ r ∈ entries.drop (below m entries), m ≤ r.id := by
  induction entries with
  | nil => exact ⟨fun r hr => absurd hr (by simp), fun r hr => absurd hr (by simp)⟩
  | cons a entries ih =>
      obtain ⟨hfirst, hrest⟩ := List.pairwise_cons.mp h
      rw [below_cons]
      split_ifs with ha
      · rw [List.take_succ_cons, List.drop_succ_cons, List.forall_mem_cons]
        exact ⟨⟨ha, (ih hrest).1⟩, (ih hrest).2⟩
      · have hnone : ∀ r ∈ entries, m ≤ r.id := by
          intro r hr
          have := hfirst r hr
          omega
        rw [below_eq_zero_iff.mpr hnone]
        refine ⟨fun r hr => absurd hr (by simp), ?_⟩
        exact List.forall_mem_cons.mpr ⟨Nat.le_of_not_lt ha, hnone⟩

theorem le_of_mem_drop {m k : ℕ} {entries : List Registration}
    (h : entries.Pairwise fun r r' => r.id < r'.id) (hk : below m entries ≤ k)
    {r : Registration} (hr : r ∈ entries.drop k) : m ≤ r.id := by
  refine (split_below m h).2 r ?_
  rw [← Nat.add_sub_cancel' hk, ← List.drop_drop] at hr
  exact List.mem_of_mem_drop hr

theorem mem_drop_of_le {m : ℕ} {entries : List Registration}
    (h : entries.Pairwise fun r r' => r.id < r'.id) {r : Registration} (hr : r ∈ entries)
    (hm : m ≤ r.id) : r ∈ entries.drop (below m entries) := by
  rw [← List.take_append_drop (below m entries) entries] at hr
  rcases List.mem_append.mp hr with htake | hdrop
  · have := (split_below m h).1 r htake
    omega
  · exact hdrop

theorem mem_take_of_lt {m : ℕ} {entries : List Registration}
    (h : entries.Pairwise fun r r' => r.id < r'.id) {r : Registration} (hr : r ∈ entries)
    (hm : r.id < m) : r ∈ entries.take (below m entries) := by
  rw [← List.take_append_drop (below m entries) entries] at hr
  rcases List.mem_append.mp hr with htake | hdrop
  · exact htake
  · have := (split_below m h).2 r hdrop
    omega

/-- Of the registrations from `m` on, the first is at the place where those below `m` end. -/
theorem exists_first_from {m : ℕ} {entries : List Registration}
    (h : entries.Pairwise fun r r' => r.id < r'.id) {p : Registration} (hp : p ∈ entries)
    (hm : m ≤ p.id) :
    ∃ r ∈ entries, m ≤ r.id ∧ r.id ≤ p.id ∧ r ∉ entries.drop (below m entries + 1) := by
  have hdrop := mem_drop_of_le h hp hm
  have hordered := h.sublist (List.drop_sublist (below m entries) entries)
  have hfrom := (split_below m h).2
  rw [← List.drop_drop]
  cases hlist : entries.drop (below m entries) with
  | nil =>
      rw [hlist] at hdrop
      cases hdrop
  | cons r rest =>
      rw [hlist] at hdrop hordered hfrom
      obtain ⟨hfirst, _⟩ := List.pairwise_cons.mp hordered
      have hmem : r ∈ entries := by
        refine List.mem_of_mem_drop (i := below m entries) ?_
        rw [hlist]
        exact List.mem_cons_self
      refine ⟨r, hmem, hfrom r List.mem_cons_self, ?_, fun hagain => ?_⟩
      · rcases List.mem_cons.mp hdrop with rfl | hlater
        · exact Nat.le_refl _
        · exact Nat.le_of_lt (hfirst p hlater)
      · exact Nat.lt_irrefl _ (hfirst r hagain)

theorem below_of_getElem? {entries : List Registration}
    (h : entries.Pairwise fun r r' => r.id < r'.id) {i : ℕ} {r : Registration}
    (hr : entries[i]? = some r) : below r.id entries = i ∧ below (r.id + 1) entries = i + 1 := by
  induction entries generalizing i with
  | nil => cases hr
  | cons a entries ih =>
      obtain ⟨hfirst, hrest⟩ := List.pairwise_cons.mp h
      rw [below_cons, below_cons]
      cases i with
      | zero =>
          obtain rfl : a = r := Option.some.inj hr
          rw [below_eq_zero_iff.mpr hfirst, below_eq_zero_iff.mpr fun r' hr' => Nat.le_of_lt (hfirst r' hr')]
          simp
      | succ i =>
          have hr' : entries[i]? = some r := hr
          have hlt := hfirst r (List.mem_of_getElem? hr')
          obtain ⟨hbelow, hbelow'⟩ := ih hrest hr'
          rw [hbelow, hbelow', if_pos hlt, if_pos (Nat.lt_succ_of_lt hlt)]
          exact ⟨rfl, rfl⟩

section Changes

variable {name : String} {m : ℕ}

theorem below_push {l : ObserverList} (hm : m ≤ l.made) (observer : ℕ) :
    below m (l.push name observer).entries = below m l.entries := by
  have hnew : below m [l.upcoming name observer] = 0 :=
    below_eq_zero_iff.mpr (List.forall_mem_singleton.mpr hm)
  rw [ObserverList.push, below_append, hnew, Nat.add_zero]

theorem below_remove_le (l : ObserverList) (observer : ℕ) :
    below m (l.remove observer).entries ≤ below m l.entries :=
  (spliceIndexs_sublist l.entries).countP_le

/-- `removeObserver` takes out none of the registrations below a number if it leaves them
alone, and some of them if it does not. -/
theorem below_remove_iff {l : ObserverList} {k : ℕ} (observer : ℕ)
    (hk : below m l.entries = k + 1) :
    below m (l.remove observer).entries = k + 1 ↔
      Leaves (k + 1) l (.removeObserver observer) := by
  by_cases hcount : l.entries.countP (isFor observer) ≤ 1
  · have hremove : (l.remove observer).entries = l.entries.filter fun r => !isFor observer r :=
      spliceIndexs_of_countP_le_one hcount
    have hsplit : below m l.entries = below m (l.entries.filter (isFor observer)) +
        below m (l.entries.filter fun r => !isFor observer r) :=
      List.countP_eq_countP_filter_add _ _ _
    have hnone : below m (l.entries.filter (isFor observer)) = 0 ↔
        ∀ r ∈ l.entries.take (k + 1), isFor observer r = false := by
      rw [below_eq_zero_iff, ← hk]
      constructor
      · intro h r hr
        by_contra hfor
        have hlt := (split_below m l.ordered).1 r hr
        have hle := h r (List.mem_filter.mpr ⟨List.mem_of_mem_take hr, by simpa using hfor⟩)
        omega
      · intro h r hr
        by_contra hlt
        obtain ⟨hr, hfor⟩ := List.mem_filter.mp hr
        rw [h r (mem_take_of_lt l.ordered hr (by omega))] at hfor
        cases hfor
    rw [Leaves, and_iff_left hcount, ← hnone, hremove]
    omega
  · -- the first registration goes, whoever it belongs to
    have hremove : (l.remove observer).entries = l.entries.drop (l.entries.countP (isFor observer)) :=
      spliceIndexs_of_two_le (by omega)
    refine iff_of_false ?_ fun h => hcount h.2
    rw [hremove]
    cases hentries : l.entries with
    | nil =>
        rw [hentries] at hk
        cases hk
    | cons a entries =>
        obtain ⟨c, hc⟩ : ∃ c, (a :: entries).countP (isFor observer) = c + 1 := by
          rw [hentries] at hcount
          exact ⟨(a :: entries).countP (isFor observer) - 1, by omega⟩
        have hfirst : a.id < m := by
          refine (split_below m l.ordered).1 a ?_
          rw [hk, hentries, List.take_succ_cons]
          exact List.mem_cons_self
        have hle : below m (entries.drop c) ≤ below m entries := (List.drop_sublist _ _).countP_le
        rw [hentries, below_cons, if_pos hfirst] at hk
        rw [hc, List.drop_succ_cons]
        omega

theorem made_le_change (l : ObserverList) (c : Change) : l.made ≤ (l.change name c).made := by
  cases c with
  | addObserver observer => exact Nat.le_succ _
  | removeObserver observer => exact Nat.le_refl _

theorem below_change_le {l : ObserverList} (hm : m ≤ l.made) (c : Change) :
    below m (l.change name c).entries ≤ below m l.entries := by
  cases c with
  | addObserver observer => exact Nat.le_of_eq (below_push hm observer)
  | removeObserver observer => exact below_remove_le l observer

theorem below_change_iff {l : ObserverList} {k : ℕ} (hm : m ≤ l.made)
    (hk : below m l.entries = k + 1) (c : Change) :
    below m (l.change name c).entries = k + 1 ↔ Leaves (k + 1) l c := by
  cases c with
  | addObserver observer => exact iff_of_true ((below_push hm observer).trans hk) trivial
  | removeObserver observer => exact below_remove_iff observer hk

theorem made_le_changeAll (changes : List Change) (l : ObserverList) :
    l.made ≤ (l.changeAll name changes).made := by
  induction changes generalizing l with
  | nil => exact Nat.le_refl _
  | cons c changes ih => exact Nat.le_trans (made_le_change l c) (ih _)

theorem below_changeAll_le (changes : List Change) {l : ObserverList} (hm : m ≤ l.made) :
    below m (l.changeAll name changes).entries ≤ below m l.entries := by
  induction changes generalizing l with
  | nil => exact Nat.le_refl _
  | cons c changes ih =>
      exact Nat.le_trans (ih (Nat.le_trans hm (made_le_change l c))) (below_change_le hm c)

/-- The registrations below a number stay as many as they are exactly when all the changes
leave them alone. -/
theorem below_changeAll_iff (changes : List Change) {l : ObserverList} {k : ℕ} (hm : m ≤ l.made)
    (hk : below m l.entries = k + 1) :
    below m (l.changeAll name changes).entries = k + 1 ↔ LeavesAll name (k + 1) changes l := by
  induction changes generalizing l with
  | nil => exact iff_of_true hk trivial
  | cons c changes ih =>
      have hm' : m ≤ (l.change name c).made := Nat.le_trans hm (made_le_change l c)
      have hiff : below m (l.change name c).entries = k + 1 ↔ Leaves (k + 1) l c :=
        below_change_iff hm hk c
      have hle : below m ((l.change name c).changeAll name changes).entries ≤
          below m (l.change name c).entries := below_changeAll_le changes hm'
      rw [ObserverList.changeAll, LeavesAll, ← hiff]
      by_cases hleaves : below m (l.change name c).entries = k + 1
      · rw [ih hm' hleaves, and_iff_right hleaves]
      · refine iff_of_false ?_ fun h => hleaves h.1
        have hle' : below m (l.change name c).entries ≤ below m l.entries := below_change_le hm c
        omega

theorem mem_of_mem_changeAll (changes : List Change) {l : ObserverList} (hm : m ≤ l.made)
    {r : Registration} (hr : r ∈ (l.changeAll name changes).entries) (hid : r.id < m) :
    r ∈ l.entries := by
  induction changes generalizing l with
  | nil => exact hr
  | cons c changes ih =>
      have hmem := ih (Nat.le_trans hm (made_le_change l c)) hr
      cases c with
      | removeObserver observer => exact (spliceIndexs_sublist _).subset hmem
      | addObserver observer =>
          rcases List.mem_append.mp hmem with hold | hnew
          · exact hold
          · rw [List.mem_singleton.mp hnew] at hid
            exact absurd hid (Nat.not_lt.mpr hm)

end Changes

/-- What holds before the pass with index `i`, whatever the handlers do. -/
structure Progress (l : ObserverList) (i : ℕ) (d : Delivery) : Prop where
  made : l.made ≤ d.obs.made
  old : ∀ r ∈ d.obs.entries, r.id < l.made → r ∈ l.entries
  few : below l.made d.obs.entries ≤ l.entries.length
  ordered : d.calls.Pairwise fun r r' => r.id < r'.id
  ahead : ∀ r ∈ d.calls, ∀ r' ∈ d.obs.entries.drop i, r.id < r'.id

def OnTime (l : ObserverList) (i : ℕ) (d : Delivery) : Prop :=
  ∀ r, Waiting l d r → r ∈ d.obs.entries.drop i ∧ d.thrown = false

section Passes

variable {name : String} {handlers : Handlers} {l : ObserverList} {d : Delivery} {i : ℕ}

theorem Delivery.turn_of_thrown (h : d.thrown = true) : d.turn name handlers i = d := if_pos h

theorem Delivery.turn_of_gone (h : d.obs.entries[i]? = none) : d.turn name handlers i = d := by
  rw [turn, h]
  exact ite_self _

theorem Delivery.turn_of_call {r : Registration} (hthrown : d.thrown = false)
    (hr : d.obs.entries[i]? = some r) :
    d.turn name handlers i =
      ⟨d.obs.changeAll name (handlers (d.calls ++ [r])).changes, d.calls ++ [r],
        (handlers (d.calls ++ [r])).throws⟩ := by
  rw [turn, if_neg (by simp [hthrown]), hr]

/-- A pass does nothing, or it calls the registration at its index. -/
theorem Delivery.turn_cases (name : String) (handlers : Handlers) (d : Delivery) (i : ℕ) :
    ((d.thrown = true ∨ d.obs.entries[i]? = none) ∧ d.turn name handlers i = d) ∨
      ∃ r, d.thrown = false ∧ d.obs.entries[i]? = some r := by
  cases hthrown : d.thrown with
  | true => exact Or.inl ⟨Or.inl rfl, turn_of_thrown hthrown⟩
  | false =>
      cases hr : d.obs.entries[i]? with
      | none => exact Or.inl ⟨Or.inr rfl, turn_of_gone hr⟩
      | some r => exact Or.inr ⟨r, rfl, rfl⟩

theorem Delivery.calls_turn_eq_concat_iff {r : Registration} :
    (d.turn name handlers i).calls = d.calls ++ [r] ↔
      d.thrown = false ∧ d.obs.entries[i]? = some r := by
  rcases d.turn_cases name handlers i with ⟨hstop, hturn⟩ | ⟨r', hthrown, hr'⟩
  · rw [hturn]
    refine iff_of_false (by simp) ?_
    rintro ⟨hthrown, hr⟩
    rcases hstop with hstop | hstop
    · rw [hstop] at hthrown
      cases hthrown
    · rw [hstop] at hr
      cases hr
  · rw [turn_of_call hthrown hr', hr']
    simp [hthrown]

theorem mem_drop_of_getElem? {entries : List Registration} {r : Registration}
    (hr : entries[i]? = some r) : r ∈ entries.drop i := by
  obtain ⟨hi, rfl⟩ := List.getElem?_eq_some_iff.mp hr
  rw [List.drop_eq_getElem_cons hi]
  exact List.mem_cons_self

/-- Behind the registration that is called, only later ones are left. -/
theorem lt_of_mem_drop_changeAll {r r' : Registration} (changes : List Change)
    (hr : d.obs.entries[i]? = some r)
    (hr' : r' ∈ (d.obs.changeAll name changes).entries.drop (i + 1)) : r.id < r'.id := by
  refine le_of_mem_drop (d.obs.changeAll name changes).ordered ?_ hr'
  have hmade : r.id + 1 ≤ d.obs.made := d.obs.earlier r (List.mem_of_getElem? hr)
  have hle : below (r.id + 1) (d.obs.changeAll name changes).entries ≤
      below (r.id + 1) d.obs.entries := below_changeAll_le changes hmade
  rwa [(below_of_getElem? d.obs.ordered hr).2] at hle

theorem Progress.turn (h : Progress l i d) : Progress l (i + 1) (d.turn name handlers i) := by
  rcases d.turn_cases name handlers i with ⟨_, hturn⟩ | ⟨r, hthrown, hr⟩
  · rw [hturn]
    refine ⟨h.made, h.old, h.few, h.ordered, fun r hr r' hr' => h.ahead r hr r' ?_⟩
    rw [← List.drop_drop] at hr'
    exact List.mem_of_mem_drop hr'
  · have hfirst := mem_drop_of_getElem? hr
    rw [Delivery.turn_of_call hthrown hr]
    refine ⟨?_, ?_, ?_, ?_, ?_⟩
    · exact Nat.le_trans h.made (made_le_changeAll _ _)
    · intro r' hr' hid
      exact h.old r' (mem_of_mem_changeAll _ h.made hr' hid) hid
    · exact Nat.le_trans (below_changeAll_le _ h.made) h.few
    · refine List.pairwise_append.mpr ⟨h.ordered, List.pairwise_singleton _ _, ?_⟩
      intro c hc r' hr'
      rw [List.mem_singleton.mp hr']
      exact h.ahead c hc r hfirst
    · intro c hc r' hr'
      have hlt := lt_of_mem_drop_changeAll _ hr hr'
      rcases List.mem_append.mp hc with hold | hnew
      · exact Nat.lt_trans (h.ahead c hold r hfirst) hlt
      · rwa [List.mem_singleton.mp hnew]

theorem progress_turns (name : String) (handlers : Handlers) (l : ObserverList) (i : ℕ) :
    Progress l i (turns name handlers l i) := by
  induction i with
  | zero =>
      refine ⟨Nat.le_refl _, fun r hr _ => hr, List.countP_le_length, List.Pairwise.nil, ?_⟩
      exact fun r hr => absurd hr List.not_mem_nil
  | succ i ih => exact ih.turn

/-- A registration that waits behind the one that is called has a greater number. -/
theorem lt_of_waiting (h : OnTime l i d) {r r' : Registration} (hr : d.obs.entries[i]? = some r)
    (hr' : r' ∈ d.obs.entries) (hold : r' ∈ l.entries) (hcalls : r' ∉ d.calls ++ [r]) :
    r.id < r'.id := by
  rw [List.mem_append, List.mem_singleton, not_or] at hcalls
  have hdrop := (h r' ⟨hold, hr', hcalls.1⟩).1
  have hi := (List.getElem?_eq_some_iff.mp hr).1
  rw [List.drop_eq_getElem_cons hi, (List.getElem?_eq_some_iff.mp hr).2] at hdrop
  have hrest : r' ∈ d.obs.entries.drop (i + 1) :=
    (List.mem_cons.mp hdrop).resolve_left hcalls.2
  exact le_of_mem_drop d.obs.ordered (Nat.le_of_eq (below_of_getElem? d.obs.ordered hr).2) hrest

/-- If something waits after a call, then so does the first registration with a greater
number than the one called. -/
theorem exists_waiting_first (h : Progress l i d) {r p : Registration}
    (hr : d.obs.entries[i]? = some r) {changes : List Change}
    (hp : p ∈ (d.obs.changeAll name changes).entries) (hold : p ∈ l.entries)
    (hlt : r.id < p.id) :
    ∃ r' ∈ l.entries, r' ∈ (d.obs.changeAll name changes).entries ∧ r' ∉ d.calls ++ [r] ∧
      r' ∉ (d.obs.changeAll name changes).entries.drop
        (below (r.id + 1) (d.obs.changeAll name changes).entries + 1) := by
  obtain ⟨r', hr', hgreater, hle, hbefore⟩ :=
    exists_first_from (d.obs.changeAll name changes).ordered hp (Nat.succ_le_of_lt hlt)
  have hmade : r'.id < l.made := Nat.lt_of_le_of_lt hle (l.earlier p hold)
  refine ⟨r', h.old r' (mem_of_mem_changeAll _ h.made hr' hmade) hmade, hr', ?_, hbefore⟩
  intro hcall
  rcases List.mem_append.mp hcall with hcall | hcall
  · have := h.ahead r' hcall r (mem_drop_of_getElem? hr)
    omega
  · rw [List.mem_singleton.mp hcall] at hgreater
    omega

/-- What waits after a pass is to come exactly when the handler has spared what it should. -/
theorem onTime_turn_iff (h : Progress l i d) (htime : OnTime l i d) :
    OnTime l (i + 1) (d.turn name handlers i) ↔ Spares name handlers l d i := by
  rcases d.turn_cases name handlers i with ⟨hstop, hturn⟩ | ⟨r, hthrown, hr⟩
  · -- nothing waits any more, since nothing is to come
    have hnone : ∀ r, ¬ Waiting l d r := by
      intro r hr
      obtain ⟨hdrop, hthrown⟩ := htime r hr
      rcases hstop with hstop | hstop
      · rw [hstop] at hthrown
        cases hthrown
      · rw [List.drop_eq_nil_of_le (List.getElem?_eq_none_iff.mp hstop)] at hdrop
        cases hdrop
    rw [hturn]
    refine iff_of_true (fun r hr => absurd hr (hnone r)) fun hthrown r hr => ?_
    rcases hstop with hstop | hstop
    · rw [hstop] at hthrown
      cases hthrown
    · rw [hstop] at hr
      cases hr
  · have hbelow := (below_of_getElem? d.obs.ordered hr).2
    have hmade : r.id + 1 ≤ d.obs.made := d.obs.earlier r (List.mem_of_getElem? hr)
    have hturn : d.turn name handlers i =
        ⟨d.obs.changeAll name (handlers (d.calls ++ [r])).changes, d.calls ++ [r],
          (handlers (d.calls ++ [r])).throws⟩ := Delivery.turn_of_call hthrown hr
    have hwaiting : ∀ r', Waiting l (d.turn name handlers i) r' → r.id < r'.id := by
      rw [hturn]
      rintro r' ⟨hold, hr', hcalls⟩
      have hmem := mem_of_mem_changeAll _ h.made hr' (l.earlier r' hold)
      exact lt_of_waiting htime hr hmem hold hcalls
    constructor
    · intro hnext _ r₀ hr₀
      obtain rfl : r = r₀ := Option.some.inj (hr.symm.trans hr₀)
      by_cases hsome : ∃ p, Waiting l (d.turn name handlers i) p
      · obtain ⟨p, hp⟩ := hsome
        have hthrows := (hnext p hp).2
        have hlt := hwaiting p hp
        rw [hturn] at hp hthrows
        refine Or.inl ⟨(below_changeAll_iff _ hmade hbelow).mp ?_, hthrows⟩
        obtain ⟨r', hold, hr', hcalls, hbefore⟩ := exists_waiting_first h hr hp.2.1 hp.1 hlt
        have hdrop := (hnext r' (by rw [hturn]; exact ⟨hold, hr', hcalls⟩)).1
        rw [hturn] at hdrop
        have hle : below (r.id + 1)
            (d.obs.changeAll name (handlers (d.calls ++ [r])).changes).entries ≤
            below (r.id + 1) d.obs.entries := below_changeAll_le _ hmade
        rw [hbelow] at hle
        refine Nat.le_antisymm hle (Nat.le_of_not_lt fun hlost => hbefore ?_)
        exact (List.drop_subset_drop_left _ hlost) hdrop
      · refine Or.inr fun r' hold hr' => by_contra fun hcalls => hsome ⟨r', ?_⟩
        rw [hturn]
        exact ⟨hold, hr', hcalls⟩
    · intro hspares r' hr'
      rcases hspares hthrown r hr with ⟨hleaves, hthrows⟩ | hnone
      · have hlt := hwaiting r' hr'
        have hkeep := (below_changeAll_iff _ hmade hbelow).mpr hleaves
        rw [hturn] at hr' ⊢
        refine ⟨?_, hthrows⟩
        have hdrop := mem_drop_of_le (m := r.id + 1) (ObserverList.ordered _) hr'.2.1 hlt
        rwa [hkeep] at hdrop
      · rw [hturn] at hr'
        exact absurd (hnone r' hr'.1 hr'.2.1) hr'.2.2

/-- Once a pass does nothing, all the later ones do nothing. -/
theorem turns_of_stopped {j : ℕ} (hij : i ≤ j)
    (hstop : (turns name handlers l i).thrown = true ∨
      (turns name handlers l i).obs.entries[i]? = none) :
    turns name handlers l j = turns name handlers l i := by
  induction j, hij using Nat.le_induction with
  | base => rfl
  | succ j hij ih =>
      rw [turns, ih]
      rcases hstop with hthrown | hgone
      · exact Delivery.turn_of_thrown hthrown
      · refine Delivery.turn_of_gone (List.getElem?_eq_none_iff.mpr ?_)
        exact Nat.le_trans (List.getElem?_eq_none_iff.mp hgone) hij

theorem onTime_iff_spares (name : String) (handlers : Handlers) (l : ObserverList) (n : ℕ) :
    (∀ i ≤ n, OnTime l i (turns name handlers l i)) ↔
      ∀ i < n, Spares name handlers l (turns name handlers l i) i := by
  constructor
  · intro h i hi
    exact (onTime_turn_iff (progress_turns name handlers l i) (h i (Nat.le_of_lt hi))).mp
      (h (i + 1) hi)
  · intro h i hi
    induction i with
    | zero => exact fun r hr => ⟨hr.1, rfl⟩
    | succ i ih =>
        exact (onTime_turn_iff (progress_turns name handlers l i) (ih (Nat.le_of_lt hi))).mpr
          (h i hi)

theorem Progress.not_mem_drop (h : Progress l i d) {r : Registration} (hr : r ∈ l.entries) :
    r ∉ d.obs.entries.drop l.entries.length := by
  intro hdrop
  have hle := le_of_mem_drop d.obs.ordered h.few hdrop
  have hlt := l.earlier r hr
  omega

theorem complete_iff_onTime (name : String) (handlers : Handlers) (l : ObserverList) :
    Complete name handlers l ↔
      ∀ i ≤ l.entries.length, OnTime l i (turns name handlers l i) := by
  constructor
  · intro h i hi r hr
    rcases (turns name handlers l i).turn_cases name handlers i with
      ⟨hstop, _⟩ | ⟨r₀, hthrown, hr₀⟩
    · refine absurd ?_ (h.all r)
      rwa [notifyJs, turns_of_stopped hi hstop]
    · refine ⟨?_, hthrown⟩
      rcases Nat.lt_or_ge i l.entries.length with hlt | hge
      · have hle := h.inTurn i hlt r₀
          (Delivery.calls_turn_eq_concat_iff.mpr ⟨hthrown, hr₀⟩) r hr
        have hdrop := mem_drop_of_le (ObserverList.ordered _) hr.2.1 hle
        rwa [(below_of_getElem? (ObserverList.ordered _) hr₀).1] at hdrop
      · rw [Nat.le_antisymm hi hge] at hr
        exact absurd hr (h.all r)
  · intro h
    refine ⟨?_, ?_, ?_, ?_⟩
    · intro i r hcall
      exact List.mem_of_getElem? (Delivery.calls_turn_eq_concat_iff.mp hcall).2
    · exact (progress_turns name handlers l _).ordered
    · intro i hi r hcall r' hr'
      have hdrop := (h i (Nat.le_of_lt hi) r' hr').1
      have hr := (Delivery.calls_turn_eq_concat_iff.mp hcall).2
      exact le_of_mem_drop (ObserverList.ordered _)
        (Nat.le_of_eq (below_of_getElem? (ObserverList.ordered _) hr).1) hdrop
    · intro r hr
      exact (progress_turns name handlers l _).not_mem_drop hr.1 (h _ (Nat.le_refl _) r hr).1

end Passes

theorem notifyJs_complete_iff (name : String) (handlers : Handlers) (l : ObserverList) :
    Complete name handlers l ↔
      ∀ i < l.entries.length, Spares name handlers l (turns name handlers l i) i := by
  rw [complete_iff_onTime, onTime_iff_spares]

def twoObservers : ObserverList := (ObserverList.empty.push "login" 1).push "login" 2

/-- The observer that is called first removes `observer`, and nobody does anything else. -/
def firstRemoves (observer : ℕ) : Handlers := fun calls =>
  if calls.length = 1 then ⟨[.removeObserver observer], false⟩ else ⟨[], false⟩

/-- An observer that removes itself, as a view model does in its cleanup, makes the loop pass
by the one behind it. -/
theorem not_complete_firstRemoves_itself :
    ¬ Complete "login" (firstRemoves 1) twoObservers := by
  intro h
  exact h.all ⟨1, "login", 2⟩ (by decide)

/-- An observer that removes one behind it does no harm. -/
theorem complete_firstRemoves_later : Complete "login" (firstRemoves 2) twoObservers :=
  (notifyJs_complete_iff "login" (firstRemoves 2) twoObservers).mpr (by decide)

end Scripts

end UnifyFramework
