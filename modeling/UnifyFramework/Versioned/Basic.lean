import Mathlib.Data.Set.Lattice
import Mathlib.Order.Basic

/-!
# Versions of keys

A store keeps versions: a key, the number under which it was written, and what was written. A
read of a key at a number sees the version of the key with the largest number that is not above
it. Stores that keep their versions in several places ask one place after the other; the first
answer is the right one when each place is newer than those after it.
-/

namespace Versioned

structure Entry (κ ν : Type*) where
  key : κ
  seq : ℕ
  value : ν
deriving DecidableEq, Repr

variable {κ ν : Type*} {E F : Set (Entry κ ν)} {k : κ} {s : ℕ} {e : Entry κ ν} {o p : Option ν}

structure IsLatest (E : Set (Entry κ ν)) (k : κ) (s : ℕ) (e : Entry κ ν) : Prop where
  mem : e ∈ E
  key_eq : e.key = k
  seq_le : e.seq ≤ s
  max : ∀ f ∈ E, f.key = k → f.seq ≤ s → f.seq ≤ e.seq

/-- A read of the key at the number sees nothing. -/
def NoneVisible (E : Set (Entry κ ν)) (k : κ) (s : ℕ) : Prop := ∀ e ∈ E, e.key = k → s < e.seq

inductive Answers (E : Set (Entry κ ν)) (k : κ) (s : ℕ) : Option ν → Prop
  | found {e : Entry κ ν} (h : IsLatest E k s e) : Answers E k s (some e.value)
  | notFound (h : NoneVisible E k s) : Answers E k s none

def Newer (E F : Set (Entry κ ν)) : Prop := ∀ e ∈ E, ∀ f ∈ F, e.key = f.key → f.seq < e.seq

def Functional (E : Set (Entry κ ν)) : Prop :=
  ∀ e ∈ E, ∀ f ∈ E, e.key = f.key → e.seq = f.seq → e = f

theorem Functional.mono (h : Functional F) (hEF : E ⊆ F) : Functional E :=
  fun e he f hf => h e (hEF he) f (hEF hf)

theorem IsLatest.eq {f : Entry κ ν} (hE : Functional E) (he : IsLatest E k s e)
    (hf : IsLatest E k s f) : e = f := by
  have hle := he.max f hf.mem hf.key_eq hf.seq_le
  have hge := hf.max e he.mem he.key_eq he.seq_le
  exact hE e he.mem f hf.mem (he.key_eq.trans hf.key_eq.symm) (Nat.le_antisymm hge hle)

theorem Answers.eq (hE : Functional E) (ho : Answers E k s o) (hp : Answers E k s p) : o = p := by
  cases ho with
  | found he =>
      cases hp with
      | found hf => rw [he.eq hE hf]
      | notFound hnone => exact absurd he.seq_le (Nat.not_le_of_lt (hnone _ he.mem he.key_eq))
  | notFound hnone =>
      cases hp with
      | found hf => exact absurd hf.seq_le (Nat.not_le_of_lt (hnone _ hf.mem hf.key_eq))
      | notFound => rfl

theorem Answers.union (hnewer : Newer E F) (ho : Answers E k s o) (hp : Answers F k s p) :
    Answers (E ∪ F) k s (o.or p) := by
  cases ho with
  | found he =>
      refine .found ⟨.inl he.mem, he.key_eq, he.seq_le, ?_⟩
      rintro f (hf | hf) hkey hle
      · exact he.max f hf hkey hle
      · exact (hnewer _ he.mem f hf (he.key_eq.trans hkey.symm)).le
  | notFound hnone =>
      cases hp with
      | found he =>
          refine .found ⟨.inr he.mem, he.key_eq, he.seq_le, ?_⟩
          rintro f (hf | hf) hkey hle
          · exact absurd hle (Nat.not_le_of_lt (hnone f hf hkey))
          · exact he.max f hf hkey hle
      | notFound hnone' =>
          refine .notFound ?_
          rintro f (hf | hf) hkey
          · exact hnone f hf hkey
          · exact hnone' f hf hkey

/-- Versions of other keys, and versions above the number, do not matter. -/
theorem Answers.congr (h : ∀ e, e.key = k → e.seq ≤ s → (e ∈ E ↔ e ∈ F))
    (ho : Answers E k s o) : Answers F k s o := by
  cases ho with
  | found he =>
      refine .found ⟨(h _ he.key_eq he.seq_le).mp he.mem, he.key_eq, he.seq_le, ?_⟩
      exact fun f hf hkey hle => he.max f ((h f hkey hle).mpr hf) hkey hle
  | notFound hnone =>
      refine .notFound fun f hf hkey => ?_
      by_contra hle
      rw [Nat.not_lt] at hle
      exact Nat.not_le_of_lt (hnone f ((h f hkey hle).mpr hf) hkey) hle

/-- Places are asked one after the other, each newer than those after it. -/
theorem answers_findSome {ι : Type*} {places : List ι} {E : ι → Set (Entry κ ν)}
    {f : ι → Option ν} (hnewer : places.Pairwise fun i j => Newer (E i) (E j))
    (hanswers : ∀ i ∈ places, Answers (E i) k s (f i)) :
    Answers {e | ∃ i ∈ places, e ∈ E i} k s (places.findSome? f) := by
  induction places with
  | nil => exact .notFound fun _ ⟨_, hi, _⟩ => absurd hi List.not_mem_nil
  | cons i places ih =>
      have hrest := ih hnewer.of_cons fun j hj => hanswers j (List.mem_cons_of_mem i hj)
      have hfirst := hanswers i List.mem_cons_self
      have hnewer' : Newer (E i) {e | ∃ j ∈ places, e ∈ E j} := by
        rintro e he g ⟨j, hj, hg⟩
        exact List.rel_of_pairwise_cons hnewer hj e he g hg
      have hboth := hfirst.union hnewer' hrest
      have hor : (f i).or (places.findSome? f) = (i :: places).findSome? f := by
        rw [List.findSome?_cons]
        cases f i <;> rfl
      rw [← hor]
      refine hboth.congr fun e _ _ => ?_
      simp only [Set.mem_union, Set.mem_ofPred_eq, List.mem_cons, exists_eq_or_imp]

section Sorted

variable (cmp : κ → κ → Ordering)

def Before (e f : Entry κ ν) : Prop :=
  cmp e.key f.key = .lt ∨ e.key = f.key ∧ f.seq < e.seq

instance [DecidableEq κ] : DecidableRel (Before cmp : Entry κ ν → Entry κ ν → Prop) := fun e f =>
  inferInstanceAs (Decidable (cmp e.key f.key = .lt ∨ e.key = f.key ∧ f.seq < e.seq))

/-- The entries with one more, behind those that stand before it. -/
def insertEntry [DecidableEq κ] (e : Entry κ ν) (es : List (Entry κ ν)) : List (Entry κ ν) :=
  es.takeWhile (Before cmp · e) ++ e :: es.dropWhile (Before cmp · e)

/-- The first entry that does not stand before the key at the number. -/
def seek [DecidableEq κ] (es : List (Entry κ ν)) (k : κ) (s : ℕ) : Option (Entry κ ν) :=
  es.find? fun e => cmp e.key k = .gt || (e.key = k && e.seq ≤ s)

def lookup [DecidableEq κ] (es : List (Entry κ ν)) (k : κ) (s : ℕ) : Option ν :=
  (seek cmp es k s).bind fun e => if e.key = k then some e.value else none

variable {cmp} [Std.TransCmp cmp]

theorem Before.trans {e f g : Entry κ ν} (h : Before cmp e f) (h' : Before cmp f g) :
    Before cmp e g := by
  rcases h with hlt | ⟨heq, hseq⟩
  · rcases h' with hlt' | ⟨heq', -⟩
    · exact .inl (Std.TransCmp.lt_trans hlt hlt')
    · exact .inl (heq' ▸ hlt)
  · rcases h' with hlt' | ⟨heq', hseq'⟩
    · exact .inl (heq ▸ hlt')
    · exact .inr ⟨heq.trans heq', hseq'.trans hseq⟩

omit [Std.TransCmp cmp] in
theorem mem_insertEntry [DecidableEq κ] {es : List (Entry κ ν)} {f : Entry κ ν} :
    f ∈ insertEntry cmp e es ↔ f = e ∨ f ∈ es := by
  have hsplit : f ∈ es ↔ f ∈ es.takeWhile (Before cmp · e) ∨ f ∈ es.dropWhile (Before cmp · e) := by
    rw [← List.mem_append, List.takeWhile_append_dropWhile]
  rw [insertEntry, List.mem_append, List.mem_cons, hsplit]
  exact or_left_comm

theorem sorted_insertEntry [DecidableEq κ] {es : List (Entry κ ν)}
    (hsorted : es.Pairwise (Before cmp)) (hother : ∀ f ∈ es, Before cmp f e ∨ Before cmp e f) :
    (insertEntry cmp e es).Pairwise (Before cmp) := by
  induction es with
  | nil => exact List.pairwise_singleton _ _
  | cons f es ih =>
      have hrest := ih hsorted.of_cons fun g hg => hother g (List.mem_cons_of_mem f hg)
      have hfirst : ∀ g ∈ es, Before cmp f g := fun g hg => List.rel_of_pairwise_cons hsorted hg
      by_cases hf : Before cmp f e
      · have heq : insertEntry cmp e (f :: es) = f :: insertEntry cmp e es := by
          simp only [insertEntry, List.takeWhile_cons, List.dropWhile_cons, hf, decide_true, if_true,
            List.cons_append]
        rw [heq]
        refine hrest.cons fun g hg => ?_
        rcases mem_insertEntry.mp hg with rfl | hg
        · exact hf
        · exact hfirst g hg
      · have heq : insertEntry cmp e (f :: es) = e :: f :: es := by
          simp only [insertEntry, List.takeWhile_cons, List.dropWhile_cons, hf, decide_false,
            Bool.false_eq_true, if_false, List.nil_append]
        have he : Before cmp e f := (hother f List.mem_cons_self).resolve_left hf
        rw [heq]
        refine hsorted.cons fun g hg => ?_
        rcases List.mem_cons.mp hg with rfl | hg
        · exact he
        · exact he.trans (hfirst g hg)

theorem ne_of_cmp_lt {k k' : κ} (h : cmp k k' = .lt) : k ≠ k' := by
  rintro rfl
  have hself : cmp k k = .eq := Std.ReflCmp.compare_self
  rw [hself] at h
  cases h

/-- Where the entries begin with a larger key, there is nothing of the key. -/
theorem key_ne_of_gt {es : List (Entry κ ν)} (hsorted : (e :: es).Pairwise (Before cmp))
    (hgt : cmp e.key k = .gt) : ∀ f ∈ e :: es, f.key ≠ k := by
  have hlt : cmp k e.key = .lt := Std.OrientedCmp.lt_of_gt hgt
  intro f hf
  rcases List.mem_cons.mp hf with rfl | hf
  · exact (ne_of_cmp_lt hlt).symm
  · rcases List.rel_of_pairwise_cons hsorted hf with hlt' | ⟨heq, -⟩
    · exact (ne_of_cmp_lt (Std.TransCmp.lt_trans hlt hlt')).symm
    · rw [← heq]
      exact (ne_of_cmp_lt hlt).symm

theorem answers_lookup [DecidableEq κ] {es : List (Entry κ ν)}
    (hsorted : es.Pairwise (Before cmp)) (k : κ) (s : ℕ) :
    Answers {e | e ∈ es} k s (lookup cmp es k s) := by
  rw [lookup, seek]
  induction es with
  | nil => exact .notFound fun _ he => absurd he List.not_mem_nil
  | cons e es ih =>
      have hrest := ih hsorted.of_cons
      rw [List.find?_cons]
      by_cases hgt : cmp e.key k = .gt
      · have hne := key_ne_of_gt hsorted hgt
        have he : e.key ≠ k := hne e List.mem_cons_self
        simp only [hgt, decide_true, Bool.true_or, Option.bind_some, if_neg he]
        exact .notFound fun f hf hkey => absurd hkey (hne f hf)
      by_cases hkey : e.key = k
      · by_cases hle : e.seq ≤ s
        · simp only [hkey, hle, decide_true, Bool.and_true, Bool.or_true, Option.bind_some, if_true]
          refine .found ⟨List.mem_cons_self, hkey, hle, fun f hf hfkey _ => ?_⟩
          rcases List.mem_cons.mp hf with rfl | hf
          · exact le_rfl
          · rcases List.rel_of_pairwise_cons hsorted hf with hlt | ⟨-, hseq⟩
            · exact absurd (hkey.trans hfkey.symm) (ne_of_cmp_lt hlt)
            · exact hseq.le
        · simp only [hgt, hle, decide_false, Bool.and_false, Bool.or_false]
          refine hrest.congr fun f hfkey hfle => ?_
          refine ⟨List.mem_cons_of_mem e, fun hf => (List.mem_cons.mp hf).resolve_left ?_⟩
          rintro rfl
          exact hle hfle
      · simp only [hgt, hkey, decide_false, Bool.false_and, Bool.or_false]
        refine hrest.congr fun f hfkey hfle => ?_
        refine ⟨List.mem_cons_of_mem e, fun hf => (List.mem_cons.mp hf).resolve_left ?_⟩
        rintro rfl
        exact hkey hfkey

end Sorted

def lastFor [DecidableEq κ] : List (Entry κ ν) → κ → Option ν
  | [], _ => none
  | e :: es, k => (lastFor es k).or (if e.key = k then some e.value else none)

theorem lastFor_append [DecidableEq κ] (es fs : List (Entry κ ν)) (k : κ) :
    lastFor (es ++ fs) k = (lastFor fs k).or (lastFor es k) := by
  induction es with
  | nil => exact Option.or_none.symm
  | cons e es ih => rw [List.cons_append, lastFor, ih, lastFor, Option.or_assoc]

/-- Where numbers grow, a read at a number that is not below them sees what was written last. -/
theorem answers_lastFor [DecidableEq κ] {es : List (Entry κ ν)}
    (hgrow : es.Pairwise fun e f => e.seq < f.seq) (hle : ∀ e ∈ es, e.seq ≤ s) :
    Answers {e | e ∈ es} k s (lastFor es k) := by
  induction es with
  | nil => exact .notFound fun _ he => absurd he List.not_mem_nil
  | cons e es ih =>
      have hrest := ih hgrow.of_cons fun f hf => hle f (List.mem_cons_of_mem e hf)
      have hnewer : Newer {f | f ∈ es} {f | f = e} := by
        rintro f hf _ rfl -
        exact List.rel_of_pairwise_cons hgrow hf
      have hfirst : Answers {f | f = e} k s (if e.key = k then some e.value else none) := by
        by_cases hkey : e.key = k
        · rw [if_pos hkey]
          refine .found ⟨rfl, hkey, hle e List.mem_cons_self, ?_⟩
          rintro _ rfl - -
          exact le_rfl
        · rw [if_neg hkey]
          refine .notFound ?_
          rintro _ rfl hkey'
          exact absurd hkey' hkey
      refine (hrest.union hnewer hfirst).congr fun f _ _ => ?_
      exact or_comm.trans List.mem_cons.symm

theorem functional_of_grow {es : List (Entry κ ν)}
    (hgrow : es.Pairwise fun e f => e.seq < f.seq) : Functional {e | e ∈ es} := by
  intro e he f hf _
  refine List.Pairwise.forall_of_forall_of_flip (R := fun e f => e.seq = f.seq → e = f)
    (fun _ _ _ => rfl) (hgrow.imp fun hlt heq => absurd heq hlt.ne)
    (hgrow.imp fun hlt heq => absurd heq hlt.ne') he hf

end Versioned
