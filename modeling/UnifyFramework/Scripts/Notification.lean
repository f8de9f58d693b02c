import UnifyFramework.Notification.Erasing
import UnifyFramework.Scripts.JsObject

/-!
# Observers of the scripts

`Notification.js` keeps under every name the array of the registrations made under it.
`removeObserver` collects the indices of an observer and then calls `splice` once for each
of them, but with the array of the indices in the place of the index. `splice` converts it
to a number: an array of one index is that index, and a longer one is not a number, which
counts as 0. With two indices or more it is therefore the front of the array that goes,
which is what should go only if all the registrations of the observer stand there.
-/

namespace UnifyFramework

namespace Scripts

open UnifyFramework.Notification

/-- An object that `addObserver` pushes. Objects of the scripts are told apart by numbers;
that of a registration is its number among the registrations made under the name. -/
structure Registration where
  id : ℕ
  name : String
  observer : ℕ
  deriving DecidableEq, Repr

structure ObserverList where
  entries : List Registration
  made : ℕ
  ordered : entries.Pairwise fun r r' => r.id < r'.id
  earlier : ∀ r ∈ entries, r.id < made

/-- `obs[i].observer == observer`. -/
def isFor (observer : ℕ) (r : Registration) : Bool := r.observer = observer

section Splicing

variable {α : Type} {checker : α → Bool}

/-- The array of the indices as the number that `splice` takes it for. -/
def toInteger : List ℕ → ℕ
  | [i] => i
  | _ => 0

/-- `splice(start, 1)` a number of times. -/
def splices (start : ℕ) : ℕ → List α → List α
  | 0, obs => obs
  | n + 1, obs => splices start n (obs.eraseIdx start)

/-- Both loops of `removeObserver`. -/
def spliceIndexs (checker : α → Bool) (obs : List α) : List α :=
  splices (toInteger (delIndexs checker 0 obs)) (delIndexs checker 0 obs).length obs

theorem length_delIndexs (i : ℕ) (obs : List α) :
    (delIndexs checker i obs).length = obs.countP checker := by
  induction obs generalizing i with
  | nil => rfl
  | cons o obs ih =>
      cases ho : checker o <;> simp [delIndexs, ho, ih]

theorem splices_sublist (start n : ℕ) (obs : List α) : (splices start n obs).Sublist obs := by
  induction n generalizing obs with
  | zero => exact List.Sublist.refl _
  | succ n ih => exact (ih _).trans (List.eraseIdx_sublist obs start)

theorem spliceIndexs_sublist (obs : List α) : (spliceIndexs checker obs).Sublist obs :=
  splices_sublist _ _ _

theorem splices_zero (n : ℕ) (obs : List α) : splices 0 n obs = obs.drop n := by
  induction n generalizing obs with
  | zero => rfl
  | succ n ih => cases obs <;> simp [splices, ih]

/-- One match at most: the index reaches `splice` as it is. -/
theorem spliceIndexs_of_countP_le_one {obs : List α} (h : obs.countP checker ≤ 1) :
    spliceIndexs checker obs = obs.filter fun o => !checker o := by
  have herase := eraseByCondition_of_countP_le_one h
  rw [← length_delIndexs 0] at h
  rw [eraseByCondition] at herase
  rw [spliceIndexs]
  cases hindexs : delIndexs checker 0 obs with
  | nil =>
      rw [hindexs] at herase
      exact Option.some.inj herase
  | cons i indexs =>
      rw [hindexs, List.length_cons] at h
      obtain rfl : indexs = [] :=
        List.length_eq_zero_iff.mp (Nat.le_zero.mp (Nat.le_of_succ_le_succ h))
      rw [hindexs] at herase
      exact Option.some.inj (eraseIndexs_cons_eq_some_iff.mp herase).2

theorem spliceIndexs_of_two_le {obs : List α} (h : 2 ≤ obs.countP checker) :
    spliceIndexs checker obs = obs.drop (obs.countP checker) := by
  rw [← length_delIndexs 0] at h ⊢
  have hzero : toInteger (delIndexs checker 0 obs) = 0 := by
    match delIndexs checker 0 obs, h with
    | _ :: _ :: _, _ => rfl
  rw [spliceIndexs, hzero, splices_zero]

def InFront (checker : α → Bool) (obs : List α) : Prop :=
  obs.countP checker ≤ 1 ∨ ∀ o ∈ obs.take (obs.countP checker), checker o = true

instance (checker : α → Bool) (obs : List α) : Decidable (InFront checker obs) :=
  inferInstanceAs (Decidable (_ ∨ ∀ _ ∈ _, _))

/-- The front has all the matches if it has as many as it has elements. -/
theorem drop_eq_filter_iff {obs : List α} :
    obs.drop (obs.countP checker) = obs.filter (fun o => !checker o) ↔
      ∀ o ∈ obs.take (obs.countP checker), checker o = true := by
  have hlen : (obs.take (obs.countP checker)).length = obs.countP checker := by
    rw [List.length_take]
    exact Nat.min_eq_left List.countP_le_length
  have hsplit : obs.countP checker = (obs.take (obs.countP checker)).countP checker +
      (obs.drop (obs.countP checker)).countP checker := by
    rw [← List.countP_append, List.take_append_drop]
  constructor
  · intro h
    have hrest : (obs.drop (obs.countP checker)).countP checker = 0 := by
      rw [h, List.countP_eq_zero]
      intro o ho
      simpa using (List.mem_filter.mp ho).2
    refine List.countP_eq_length.mp ?_
    rw [hlen]
    omega
  · intro h
    have hfront := List.countP_eq_length.mpr h
    have hrest : (obs.drop (obs.countP checker)).countP checker = 0 := by omega
    have hkeep : ∀ o ∈ obs.drop (obs.countP checker), checker o = false := by
      intro o ho
      simpa using List.countP_eq_zero.mp hrest o ho
    have hgone : (obs.take (obs.countP checker)).filter (fun o => !checker o) = [] := by
      refine List.filter_eq_nil_iff.mpr fun o ho => ?_
      simp [h o ho]
    conv_rhs => rw [← List.take_append_drop (obs.countP checker) obs]
    rw [List.filter_append, hgone, filter_not_eq_self hkeep, List.nil_append]

theorem spliceIndexs_eq_filter_iff {obs : List α} :
    spliceIndexs checker obs = obs.filter (fun o => !checker o) ↔ InFront checker obs := by
  by_cases h : obs.countP checker ≤ 1
  · exact iff_of_true (spliceIndexs_of_countP_le_one h) (Or.inl h)
  · rw [spliceIndexs_of_two_le (by omega), drop_eq_filter_iff]
    exact (or_iff_right h).symm

end Splicing

namespace ObserverList

def empty : ObserverList := ⟨[], 0, List.Pairwise.nil, fun _ h => absurd h List.not_mem_nil⟩

/-- The registration that `addObserver` makes next. -/
def upcoming (l : ObserverList) (name : String) (observer : ℕ) : Registration :=
  ⟨l.made, name, observer⟩

def push (l : ObserverList) (name : String) (observer : ℕ) : ObserverList where
  entries := l.entries ++ [l.upcoming name observer]
  made := l.made + 1
  ordered := by
    refine List.pairwise_append.mpr ⟨l.ordered, List.pairwise_singleton _ _, ?_⟩
    intro r hr r' hr'
    rw [List.mem_singleton.mp hr']
    exact l.earlier r hr
  earlier := by
    intro r hr
    rcases List.mem_append.mp hr with hold | hnew
    · exact Nat.lt_succ_of_lt (l.earlier r hold)
    · rw [List.mem_singleton.mp hnew]
      exact Nat.lt_succ_self _

def remove (l : ObserverList) (observer : ℕ) : ObserverList where
  entries := spliceIndexs (isFor observer) l.entries
  made := l.made
  ordered := l.ordered.sublist (spliceIndexs_sublist _)
  earlier := fun r hr => l.earlier r ((spliceIndexs_sublist _).subset hr)

end ObserverList

/-- `Notification.observers`. -/
structure JsNotification where
  observers : JsObject ObserverList

namespace JsNotification

def under (n : JsNotification) (name : String) : List Registration :=
  (n.observers.own[name]?.elim ObserverList.empty id).entries

theorem under_of_absent {n : JsNotification} {name : String}
    (h : n.observers.own[name]? = none) : n.under name = [] := by
  rw [under, h]
  rfl

theorem under_of_own {n : JsNotification} {name : String} {l : ObserverList}
    (h : n.observers.own[name]? = some l) : n.under name = l.entries := by
  rw [under, h]
  rfl

/-- An inherited property has no `push`, so that the call throws: `none`. -/
def addObserver (n : JsNotification) (name : String) (observer : ℕ) : Option JsNotification :=
  match n.observers.get name with
  | .own l => some ⟨n.observers.put name (l.push name observer)⟩
  | .inherited _ => none
  | .undefined => some ⟨n.observers.put name (ObserverList.empty.push name observer)⟩

/-- An inherited function that has a length, but no elements, makes the call throw. -/
def removeObserver (n : JsNotification) (name : String) (observer : ℕ) : Option JsNotification :=
  match n.observers.get name with
  | .own l => some ⟨n.observers.put name (l.remove observer)⟩
  | .inherited length => if length > 0 then none else some n
  | .undefined => some n

def FilteredUnder (n n' : JsNotification) (name : String) (observer : ℕ) : Prop :=
  n'.under name = (n.under name).filter (fun r => !isFor observer r) ∧
    ∀ name' ≠ name, n'.observers.own[name']? = n.observers.own[name']?

theorem removeObserver_filtered_iff (n : JsNotification) (name : String) (observer : ℕ)
    (hname : inherited name = none) :
    (∃ n', n.removeObserver name observer = some n' ∧ n.FilteredUnder n' name observer) ↔
      InFront (isFor observer) (n.under name) := by
  cases hown : n.observers.own[name]? with
  | none =>
      have hunder := under_of_absent hown
      rw [removeObserver, JsObject.get_of_undefined hown hname, hunder]
      refine iff_of_true ⟨n, rfl, ?_, fun _ _ => rfl⟩ (Or.inl (Nat.zero_le _))
      rw [hunder]
      rfl
  | some l =>
      have hunder := under_of_own hown
      have hunder' : under ⟨n.observers.put name (l.remove observer)⟩ name =
          spliceIndexs (isFor observer) l.entries := by
        rw [under, JsObject.own_put, if_pos rfl]
        rfl
      rw [removeObserver, JsObject.get_of_own hown, hunder, ← spliceIndexs_eq_filter_iff]
      constructor
      · rintro ⟨n', hn', hfiltered⟩
        rw [← Option.some.inj hn'] at hfiltered
        rw [← hunder', hfiltered.1, hunder]
      · intro hsplice
        refine ⟨_, rfl, ?_, fun name' hne => ?_⟩
        · rw [hunder', hsplice, hunder]
        · rw [JsObject.own_put, if_neg hne.symm]

/-- A page that is registered twice behind another one. -/
def registeredTwice : JsNotification :=
  ⟨⟨(∅ : Std.ExtTreeMap String ObserverList).insert "login"
    (((ObserverList.empty.push "login" 2).push "login" 1).push "login" 1)⟩⟩

/-- Both calls of `splice` take the first registration: the other page goes, and one
registration of the page stays. -/
theorem not_filtered_registeredTwice :
    ¬ ∃ n', registeredTwice.removeObserver "login" 1 = some n' ∧
      registeredTwice.FilteredUnder n' "login" 1 := by
  rintro ⟨n', hremove, hfiltered, _⟩
  have hleft : (registeredTwice.removeObserver "login" 1).map (·.under "login") =
      some [⟨2, "login", 1⟩] := by decide
  have hmeant : (registeredTwice.under "login").filter (fun r => !isFor 1 r) =
      [⟨0, "login", 2⟩] := by decide
  rw [hremove, Option.map_some, hfiltered, hmeant] at hleft
  exact absurd hleft (by decide)

theorem filtered_registeredTwice_other :
    inherited "login" = none ∧
      ∃ n', registeredTwice.removeObserver "login" 2 = some n' ∧
        registeredTwice.FilteredUnder n' "login" 2 :=
  ⟨by decide, (removeObserver_filtered_iff registeredTwice "login" 2 (by decide)).mpr (by decide)⟩

theorem under_put (n : JsNotification) (name name' : String) (l : ObserverList) :
    under ⟨n.observers.put name l⟩ name' = if name = name' then l.entries else n.under name' := by
  rw [under, JsObject.own_put]
  split_ifs with hname
  · rfl
  · rfl

/-- A registration under a name that is not inherited succeeds and comes last. -/
theorem exists_addObserver (n : JsNotification) {name : String} (observer : ℕ)
    (hname : inherited name = none) :
    ∃ n' r, n.addObserver name observer = some n' ∧ isFor observer r = true ∧
      ∀ name', n'.under name' =
        if name = name' then n.under name ++ [r] else n.under name' := by
  cases hown : n.observers.own[name]? with
  | none =>
      have hunder := under_of_absent hown
      refine ⟨⟨n.observers.put name (ObserverList.empty.push name observer)⟩,
        ObserverList.empty.upcoming name observer, ?_, decide_eq_true rfl, fun name' => ?_⟩
      · rw [addObserver, JsObject.get_of_undefined hown hname]
      · rw [under_put, hunder]
        rfl
  | some l =>
      have hunder := under_of_own hown
      refine ⟨⟨n.observers.put name (l.push name observer)⟩, l.upcoming name observer, ?_,
        decide_eq_true rfl, fun name' => ?_⟩
      · rw [addObserver, JsObject.get_of_own hown]
      · rw [under_put, hunder]
        rfl

theorem exists_removeObserver (n : JsNotification) {name : String} {observer : ℕ}
    (hname : inherited name = none) (h : (n.under name).countP (isFor observer) ≤ 1) :
    ∃ n', n.removeObserver name observer = some n' ∧
      ∀ name', n'.under name' =
        if name = name' then (n.under name).filter (fun r => !isFor observer r)
        else n.under name' := by
  cases hown : n.observers.own[name]? with
  | none =>
      have hunder := under_of_absent hown
      refine ⟨n, ?_, fun name' => ?_⟩
      · rw [removeObserver, JsObject.get_of_undefined hown hname]
      · split_ifs with hsame
        · rw [← hsame, hunder]
          rfl
        · rfl
  | some l =>
      have hunder := under_of_own hown
      refine ⟨⟨n.observers.put name (l.remove observer)⟩, ?_, fun name' => ?_⟩
      · rw [removeObserver, JsObject.get_of_own hown]
      · rw [hunder] at h
        rw [under_put, hunder, ← spliceIndexs_of_countP_le_one h]
        rfl

/-- `ViewModel.prototype.init` for a view model with the given interests. -/
def initViewModel (viewModel : ℕ) : List String → JsNotification → Option JsNotification
  | [], n => some n
  | interest :: interests, n =>
      (n.addObserver interest viewModel).bind (initViewModel viewModel interests)

/-- `ViewModel.prototype.cleanup`. -/
def cleanupViewModel (viewModel : ℕ) : List String → JsNotification → Option JsNotification
  | [], n => some n
  | interest :: interests, n =>
      (n.removeObserver interest viewModel).bind (cleanupViewModel viewModel interests)

theorem exists_initViewModel (viewModel : ℕ) {interests : List String} (n : JsNotification)
    (hnodup : interests.Nodup) (hnames : ∀ name ∈ interests, inherited name = none) :
    ∃ n', initViewModel viewModel interests n = some n' ∧
      ∀ name, (name ∉ interests → n'.under name = n.under name) ∧
        (name ∈ interests → ∃ r, isFor viewModel r = true ∧
          n'.under name = n.under name ++ [r]) := by
  induction interests generalizing n with
  | nil => exact ⟨n, rfl, fun name => ⟨fun _ => rfl, fun h => absurd h List.not_mem_nil⟩⟩
  | cons interest interests ih =>
      obtain ⟨hnot, hnodup⟩ := List.nodup_cons.mp hnodup
      obtain ⟨hinterest, hnames⟩ := List.forall_mem_cons.mp hnames
      obtain ⟨m, r, hm, hr, hunder⟩ := n.exists_addObserver viewModel hinterest
      obtain ⟨n', hn', hrest⟩ := ih m hnodup hnames
      refine ⟨n', by rw [initViewModel, hm, Option.bind_some, hn'], fun name => ?_⟩
      rcases eq_or_ne interest name with rfl | hne
      · refine ⟨fun h => absurd List.mem_cons_self h, fun _ => ⟨r, hr, ?_⟩⟩
        rw [(hrest interest).1 hnot, hunder, if_pos rfl]
      · have hsame : m.under name = n.under name := by rw [hunder, if_neg hne]
        rw [List.mem_cons, or_iff_right hne.symm, ← hsame]
        exact hrest name

theorem exists_cleanupViewModel (viewModel : ℕ) {interests : List String} (n : JsNotification)
    (hnodup : interests.Nodup) (hnames : ∀ name ∈ interests, inherited name = none)
    (hcount : ∀ name ∈ interests, (n.under name).countP (isFor viewModel) ≤ 1) :
    ∃ n', cleanupViewModel viewModel interests n = some n' ∧
      ∀ name, n'.under name =
        if name ∈ interests then (n.under name).filter (fun r => !isFor viewModel r)
        else n.under name := by
  induction interests generalizing n with
  | nil => exact ⟨n, rfl, fun name => rfl⟩
  | cons interest interests ih =>
      obtain ⟨hnot, hnodup⟩ := List.nodup_cons.mp hnodup
      obtain ⟨hinterest, hnames⟩ := List.forall_mem_cons.mp hnames
      obtain ⟨hone, hcount⟩ := List.forall_mem_cons.mp hcount
      obtain ⟨m, hm, hunder⟩ := n.exists_removeObserver hinterest hone
      have hother : ∀ name ∈ interests, m.under name = n.under name := by
        intro name hname
        rw [hunder, if_neg]
        rintro rfl
        exact hnot hname
      obtain ⟨n', hn', hrest⟩ := ih m hnodup hnames fun name hname => by
        rw [hother name hname]
        exact hcount name hname
      refine ⟨n', by rw [cleanupViewModel, hm, Option.bind_some, hn'], fun name => ?_⟩
      rw [hrest, hunder]
      rcases eq_or_ne interest name with rfl | hne
      · rw [if_neg hnot, if_pos rfl, if_pos List.mem_cons_self]
      · simp only [List.mem_cons, or_iff_right hne.symm, if_neg hne]

/-- The registrations that a view model makes with different interests go with its cleanup,
and no other ones do. -/
theorem under_cleanup_init (viewModel : ℕ) {interests : List String} (n : JsNotification)
    (hnodup : interests.Nodup) (hnames : ∀ name ∈ interests, inherited name = none)
    (hnew : ∀ name ∈ interests, ∀ r ∈ n.under name, isFor viewModel r = false) :
    ∃ n', (initViewModel viewModel interests n).bind (cleanupViewModel viewModel interests) =
      some n' ∧ ∀ name, n'.under name = n.under name := by
  obtain ⟨m, hm, hunder⟩ := exists_initViewModel viewModel n hnodup hnames
  have hcount : ∀ name ∈ interests, (m.under name).countP (isFor viewModel) ≤ 1 := by
    intro name hname
    obtain ⟨r, _, hlist⟩ := (hunder name).2 hname
    have hzero : (n.under name).countP (isFor viewModel) = 0 :=
      List.countP_eq_zero.mpr fun r hr => by simp [hnew name hname r hr]
    rw [hlist, List.countP_append, hzero, Nat.zero_add]
    exact List.countP_le_length
  obtain ⟨n', hn', hrest⟩ := exists_cleanupViewModel viewModel m hnodup hnames hcount
  refine ⟨n', by rw [hm, Option.bind_some, hn'], fun name => ?_⟩
  rw [hrest]
  split_ifs with hname
  · obtain ⟨r, hr, hlist⟩ := (hunder name).2 hname
    rw [hlist, List.filter_append, filter_not_eq_self (hnew name hname)]
    simp [hr]
  · exact (hunder name).1 hname

end JsNotification

end Scripts

end UnifyFramework
