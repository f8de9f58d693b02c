import UnifyFramework.Leveldb.Compaction
import UnifyFramework.Leveldb.Flush
import UnifyFramework.Search.Ranges

/-!
# The inputs of a compaction

The inputs of a compaction are chosen by their ranges of user keys. Together they leave no gap: a
file that lies between them meets one of them. Hence a file that is put into the level of the
outputs while the compaction runs, past which it has no overlap, does not overlap an output.
-/

namespace UnifyFramework

namespace Leveldb

open Search

namespace FileMetaData

def lo (f : FileMetaData) : List ℕ := rank f.smallestUserKey

def hi (f : FileMetaData) : List ℕ := rank f.largestUserKey

end FileMetaData

open FileMetaData

variable {f g : FileMetaData} {a b : Slice} {level : ℕ}
  {all done files inputs result : List FileMetaData}
  {seeds : Set FileMetaData}

theorem not_outOfRange_iff : ¬OutOfRange a b f ↔ Meets lo hi (rank a) (rank b) f := by
  rw [OutOfRange, not_or, not_lt, not_lt]
  rfl

def Apart (f g : FileMetaData) : Prop := OutOfRange f.smallestUserKey f.largestUserKey g

theorem Apart.symm (h : Apart f g) : Apart g f := Or.symm h

theorem not_apart_iff : ¬Apart f g ↔ Meets lo hi f.lo f.hi g := not_outOfRange_iff

structure Overlapping (level : ℕ) (a b : Slice) (done inputs : List FileMetaData) : Prop where
  sublist : inputs.Sublist done
  mem : ∀ f ∈ done, ¬OutOfRange a b f → f ∈ inputs
  meets : ∀ f ∈ inputs, ¬OutOfRange a b f
  within : level = 0 → ∀ f ∈ inputs, rank a ≤ f.lo ∧ f.hi ≤ rank b

theorem overlapping_nil (level : ℕ) (a b : Slice) : Overlapping level a b [] [] where
  sublist := .slnil
  mem _ hf := absurd hf List.not_mem_nil
  meets _ hf := absurd hf List.not_mem_nil
  within _ _ hf := absurd hf List.not_mem_nil

theorem Overlapping.skip (h : Overlapping level a b done inputs) (hf : OutOfRange a b f) :
    Overlapping level a b (done ++ [f]) inputs where
  sublist := h.sublist.trans (List.sublist_append_left done [f])
  mem g hg hmeets := by
    rcases List.mem_append.mp hg with hg | hg
    · exact h.mem g hg hmeets
    · exact absurd (List.mem_singleton.mp hg ▸ hf) hmeets
  meets := h.meets
  within := h.within

theorem Overlapping.take (h : Overlapping level a b done inputs) (hf : ¬OutOfRange a b f)
    (hwithin : level = 0 → rank a ≤ f.lo ∧ f.hi ≤ rank b) :
    Overlapping level a b (done ++ [f]) (inputs ++ [f]) where
  sublist := h.sublist.append (.refl [f])
  mem g hg hmeets := by
    rcases List.mem_append.mp hg with hg | hg
    · exact List.mem_append_left [f] (h.mem g hg hmeets)
    · exact List.mem_append_right inputs hg
  meets g hg := by
    rcases List.mem_append.mp hg with hg | hg
    · exact h.meets g hg
    · exact List.mem_singleton.mp hg ▸ hf
  within hlevel g hg := by
    rcases List.mem_append.mp hg with hg | hg
    · exact h.within hlevel g hg
    · exact List.mem_singleton.mp hg ▸ hwithin hlevel

def Grown (seeds : Set FileMetaData) (all : List FileMetaData) (a b : Slice) : Prop :=
  ∃ D : Set FileMetaData, (∀ f ∈ D, f ∈ all ∧ ¬OutOfRange a b f) ∧
    Connected lo hi (seeds ∪ D) ∧ Spans lo hi (seeds ∪ D) (rank a) (rank b)

theorem OutOfRange.mono {a' b' : Slice} (h : OutOfRange a' b' f) (ha : rank a' ≤ rank a)
    (hb : rank b ≤ rank b') : OutOfRange a b f :=
  h.imp (fun hlt => hlt.trans_le ha) fun hlt => hb.trans_lt hlt

theorem Grown.widen (h : Grown seeds all a b) (hf : f ∈ all) (hmeets : ¬OutOfRange a b f)
    {a' b' : Slice} (ha : rank a' ≤ rank a) (hb : rank b ≤ rank b')
    (hlo : rank a' = f.lo ∨ rank a' = rank a) (hhi : rank b' = f.hi ∨ rank b' = rank b) :
    Grown seeds all a' b' := by
  obtain ⟨D, hD, hconnected, hspans⟩ := h
  have hunion : seeds ∪ insert f D = (seeds ∪ D) ∪ {f} := by
    rw [Set.union_assoc, Set.union_singleton]
  have hmem : f ∈ (seeds ∪ D) ∪ {f} := .inr rfl
  have hspans' := hspans.mono (Set.subset_union_left (t := {f}))
  refine ⟨insert f D, ?_, ?_, ?_⟩
  · rintro g (rfl | hg)
    · exact ⟨hf, fun hout => hmeets (hout.mono ha hb)⟩
    · exact ⟨(hD g hg).1, fun hout => (hD g hg).2 (hout.mono ha hb)⟩
  · rw [hunion]
    refine hconnected.union hspans ?_
    rintro _ rfl
    exact not_outOfRange_iff.mp hmeets
  · rw [hunion]
    refine ⟨?_, ?_⟩
    · rcases hlo with hlo | hlo
      · exact ⟨f, hmem, hlo.ge⟩
      · rw [hlo]
        exact hspans'.1
    · rcases hhi with hhi | hhi
      · exact ⟨f, hmem, hhi.le⟩
      · rw [hhi]
        exact hspans'.2

def reachingOver (all : List FileMetaData) (a b : Slice) : ℕ :=
  all.countP (fun f => f.lo < rank a) + all.countP fun f => rank b < f.hi

theorem countP_lt_countP {α : Type*} {p q : α → Bool} {l : List α} {x : α}
    (hpq : ∀ y ∈ l, p y = true → q y = true) (hx : x ∈ l) (hp : p x = false) (hq : q x = true) :
    l.countP p < l.countP q := by
  obtain ⟨s, t, rfl⟩ := List.append_of_mem hx
  have hs := List.countP_mono_left (l := s) fun y hy => hpq y (List.mem_append_left _ hy)
  have ht := List.countP_mono_left (l := t) fun y hy =>
    hpq y (List.mem_append_right _ (List.mem_cons_of_mem x hy))
  simp only [List.countP_append, List.countP_cons, hp, hq, if_true, Bool.false_eq_true, if_false]
  omega

theorem reachingOver_lo (hf : f ∈ all) (hlt : f.lo < rank a) :
    reachingOver all f.smallestUserKey b < reachingOver all a b := by
  refine Nat.add_lt_add_right (countP_lt_countP (fun g _ hg => ?_) hf ?_ (decide_eq_true hlt)) _
  · exact decide_eq_true ((of_decide_eq_true hg).trans hlt)
  · exact decide_eq_false (lt_irrefl _)

theorem reachingOver_hi (hf : f ∈ all) (hlt : rank b < f.hi) :
    reachingOver all a f.largestUserKey < reachingOver all a b := by
  refine Nat.add_lt_add_left (countP_lt_countP (fun g _ hg => ?_) hf ?_ (decide_eq_true hlt)) _
  · exact decide_eq_true (hlt.trans (of_decide_eq_true hg))
  · exact decide_eq_false (lt_irrefl _)

def Returns (seeds : Set FileMetaData) (level : ℕ) (all : List FileMetaData) (a b : Slice)
    (o : Option (List FileMetaData)) : Prop :=
  ∃ result a' b', o = some result ∧ rank a' ≤ rank a ∧ rank b ≤ rank b' ∧ Grown seeds all a' b' ∧
    Overlapping level a' b' all result ∧ (level ≠ 0 → a' = a ∧ b' = b)

/-- Each round either is done with a file or widens the range, for which there is one file less
that reaches over its ends. -/
theorem overlappingLoop_returns {n : ℕ} (hgrown : Grown seeds all a b) (hall : all = done ++ files)
    (hinv : Overlapping level a b done inputs)
    (hfuel : reachingOver all a b * (all.length + 1) + files.length ≤ n) :
    Returns seeds level all a b (Version.overlappingLoop level all n a b files inputs) := by
  induction n generalizing a b done files inputs with
  | zero =>
      obtain rfl : files = [] := List.eq_nil_of_length_eq_zero (by omega)
      rw [List.append_nil] at hall
      subst hall
      exact ⟨inputs, a, b, rfl, le_rfl, le_rfl, hgrown, hinv, fun _ => ⟨rfl, rfl⟩⟩
  | succ n ih =>
      cases files with
      | nil =>
          rw [List.append_nil] at hall
          subst hall
          exact ⟨inputs, a, b, rfl, le_rfl, le_rfl, hgrown, hinv, fun _ => ⟨rfl, rfl⟩⟩
      | cons f files =>
          have hf : f ∈ all := hall ▸ List.mem_append_right done List.mem_cons_self
          have hall' : all = (done ++ [f]) ++ files := by
            rw [hall, List.append_assoc, List.singleton_append]
          have hnext : reachingOver all a b * (all.length + 1) + files.length ≤ n := by
            rw [List.length_cons] at hfuel
            omega
          have hrestart : ∀ {a' b' : Slice}, reachingOver all a' b' < reachingOver all a b →
              reachingOver all a' b' * (all.length + 1) + all.length ≤ n := by
            intro a' b' hlt
            have hmul := Nat.mul_le_mul_right (all.length + 1) (Nat.succ_le_of_lt hlt)
            rw [Nat.succ_mul] at hmul
            omega
          rw [Version.overlappingLoop]
          simp only [bytewiseCompare_eq_lt_iff, bytewiseCompare_eq_gt_iff]
          split_ifs with hbefore hafter hlo hhi
          · exact ih hgrown hall' (hinv.skip (.inl hbefore)) hnext
          · exact ih hgrown hall' (hinv.skip (.inr hafter)) hnext
          · have hmeets : ¬OutOfRange a b f := not_or.mpr ⟨hbefore, hafter⟩
            have hwider := hgrown.widen hf hmeets hlo.2.le le_rfl (.inl rfl) (.inr rfl)
            obtain ⟨result, a', b', hresult, ha, hb, hrest⟩ :=
              ih hwider rfl (overlapping_nil level _ _) (hrestart (reachingOver_lo hf hlo.2))
            exact ⟨result, a', b', hresult, ha.trans hlo.2.le, hb, hrest.1, hrest.2.1,
              fun hlevel => absurd hlo.1 hlevel⟩
          · have hmeets : ¬OutOfRange a b f := not_or.mpr ⟨hbefore, hafter⟩
            have hwider := hgrown.widen hf hmeets le_rfl hhi.2.le (.inr rfl) (.inl rfl)
            obtain ⟨result, a', b', hresult, ha, hb, hrest⟩ :=
              ih hwider rfl (overlapping_nil level _ _) (hrestart (reachingOver_hi hf hhi.2))
            exact ⟨result, a', b', hresult, ha, hhi.2.le.trans hb, hrest.1, hrest.2.1,
              fun hlevel => absurd hhi.1 hlevel⟩
          · refine ih hgrown hall' (hinv.take (not_or.mpr ⟨hbefore, hafter⟩) fun hlevel => ?_) hnext
            exact ⟨not_lt.mp fun hlt => hlo ⟨hlevel, hlt⟩, not_lt.mp fun hlt => hhi ⟨hlevel, hlt⟩⟩

namespace Version

variable {v : Version}

theorem getOverlappingInputs_returns (v : Version) (level : ℕ) (hseeds : Connected lo hi seeds)
    (hspans : Spans lo hi seeds (rank a) (rank b)) :
    Returns seeds level (v.files level) a b (v.getOverlappingInputs level a b) := by
  have hgrown : Grown seeds (v.files level) a b := by
    refine ⟨∅, fun f hf => absurd hf (Set.notMem_empty f), ?_, ?_⟩
    · rwa [Set.union_empty]
    · rwa [Set.union_empty]
  refine overlappingLoop_returns hgrown rfl (overlapping_nil level a b) ?_
  have hreach : reachingOver (v.files level) a b ≤ 2 * (v.files level).length := by
    have hlo := List.countP_le_length (p := fun f : FileMetaData => decide (f.lo < rank a))
      (l := v.files level)
    have hhi := List.countP_le_length (p := fun f : FileMetaData => decide (rank b < f.hi))
      (l := v.files level)
    rw [reachingOver]
    omega
  have hmul := Nat.mul_le_mul_right ((v.files level).length + 1) hreach
  rw [Nat.succ_mul]
  omega

end Version

theorem rank_le_of_internalKeyCompare {x y : Slice} (h : internalKeyCompare x y ≠ .gt) :
    rank (extractUserKey x) ≤ rank (extractUserKey y) := by
  rw [internalKeyCompare] at h
  cases hcmp : bytewiseCompare (extractUserKey x) (extractUserKey y) with
  | lt => exact ((bytewiseCompare_eq_lt_iff _ _).mp hcmp).le
  | gt => simp [hcmp] at h
  | eq => rw [Std.LawfulEqCmp.eq_of_compare hcmp]

structure IsRange (inputs : Set FileMetaData) (range : Slice × Slice) : Prop where
  le_lo : ∀ f ∈ inputs, rank (extractUserKey range.1) ≤ f.lo
  hi_le : ∀ f ∈ inputs, f.hi ≤ rank (extractUserKey range.2)
  spans : Spans lo hi inputs (rank (extractUserKey range.1)) (rank (extractUserKey range.2))

theorem IsRange.widenRange {C : Set FileMetaData} {range : Slice × Slice} (h : IsRange C range)
    (g : FileMetaData) : IsRange (insert g C) (widenRange range g) := by
  have hsmallest : rank (extractUserKey
        (if internalKeyCompare g.smallest range.1 = .lt then g.smallest else range.1)) =
      min g.lo (rank (extractUserKey range.1)) := by
    split
    · rename_i hlt
      refine (min_eq_left (rank_le_of_internalKeyCompare ?_)).symm
      rw [hlt]
      decide
    · rename_i hge
      refine (min_eq_right (rank_le_of_internalKeyCompare ?_)).symm
      rw [internalKeyCompare_swap g.smallest]
      cases hcmp : internalKeyCompare g.smallest range.1 <;> simp_all
  have hlargest : rank (extractUserKey
        (if internalKeyCompare g.largest range.2 = .gt then g.largest else range.2)) =
      max g.hi (rank (extractUserKey range.2)) := by
    split
    · rename_i hgt
      refine (max_eq_left (rank_le_of_internalKeyCompare ?_)).symm
      rw [internalKeyCompare_swap g.largest, hgt]
      decide
    · rename_i hle
      exact (max_eq_right (rank_le_of_internalKeyCompare hle)).symm
  refine ⟨?_, ?_, ?_, ?_⟩ <;> simp only [Leveldb.widenRange, hsmallest, hlargest]
  · rintro f (rfl | hf)
    · exact min_le_left _ _
    · exact (min_le_right _ _).trans (h.le_lo f hf)
  · rintro f (rfl | hf)
    · exact le_max_left _ _
    · exact (h.hi_le f hf).trans (le_max_right _ _)
  · rcases min_choice g.lo (rank (extractUserKey range.1)) with hmin | hmin <;> rw [hmin]
    · exact ⟨g, .inl rfl, le_rfl⟩
    · exact h.spans.1.imp fun _ hf => ⟨.inr hf.1, hf.2⟩
  · rcases max_choice g.hi (rank (extractUserKey range.2)) with hmax | hmax <;> rw [hmax]
    · exact ⟨g, .inl rfl, le_rfl⟩
    · exact h.spans.2.imp fun _ hf => ⟨.inr hf.1, hf.2⟩

theorem IsRange.foldl {C : Set FileMetaData} {range : Slice × Slice} (h : IsRange C range)
    (gs : List FileMetaData) : IsRange (C ∪ {g | g ∈ gs}) (gs.foldl Leveldb.widenRange range) := by
  induction gs generalizing C range with
  | nil => simpa using h
  | cons g gs ih =>
      have hset : C ∪ {x | x ∈ g :: gs} = insert g C ∪ {x | x ∈ gs} := by
        ext x
        simp only [Set.mem_union, Set.mem_ofPred_eq, List.mem_cons, Set.mem_insert_iff]
        tauto
      rw [hset]
      exact ih (h.widenRange g)

theorem getRange_isRange (hinputs : inputs ≠ []) :
    ∃ range, getRange inputs = some range ∧ IsRange {f | f ∈ inputs} range := by
  cases inputs with
  | nil => exact absurd rfl hinputs
  | cons f inputs =>
      refine ⟨_, rfl, ?_⟩
      have hfirst : IsRange {f} (f.smallest, f.largest) :=
        ⟨fun _ hg => hg ▸ le_rfl, fun _ hg => hg ▸ le_rfl, ⟨f, rfl, le_rfl⟩, ⟨f, rfl, le_rfl⟩⟩
      have hset : {x | x ∈ f :: inputs} = {f} ∪ {x | x ∈ inputs} := by
        ext x
        simp
      rw [hset]
      exact hfirst.foldl inputs

namespace Version

variable {v : Version} {inputs0 inputs1 : List FileMetaData}

/-- The files of a level that were found for some inputs: the others are apart from the inputs,
and on level zero from the files that were found. -/
structure Closes (v : Version) (level : ℕ) (inputs result : List FileMetaData) : Prop where
  sublist : result.Sublist (v.files level)
  apart : ∀ g ∈ v.files level, g ∉ result → ∀ f ∈ inputs, Apart f g
  apart_zero : level = 0 → ∀ g ∈ v.files level, g ∉ result → ∀ f ∈ result, Apart f g

/-- The files that are found for inputs among connected files are connected with them. -/
theorem Ordered.closes_overlappingFiles (h : v.Ordered) (level : ℕ) (hinputs : inputs ≠ [])
    (hseeds : Connected lo hi seeds) (hsubset : ∀ f ∈ inputs, f ∈ seeds) :
    ∃ result, v.overlappingFiles level inputs = some result ∧ v.Closes level inputs result ∧
      Connected lo hi (seeds ∪ {f | f ∈ result}) ∧
      (0 < level → ∀ g ∈ result, ∃ f ∈ seeds, ¬Apart f g) := by
  obtain ⟨range, hrange, hisRange⟩ := getRange_isRange hinputs
  have hspans := hisRange.spans.mono hsubset
  obtain ⟨result, a', b', hresult, ha, hb, ⟨D, hD, hgrown, hspans'⟩, hover, hdeep⟩ :=
    getOverlappingInputs_returns v level hseeds hspans
  have hout : ∀ g ∈ v.files level, g ∉ result → OutOfRange a' b' g := by
    intro g hg hnot
    by_contra hmeets
    exact hnot (hover.mem g hg hmeets)
  refine ⟨result, ?_, ⟨hover.sublist, ?_, ?_⟩, ?_, ?_⟩
  · rw [overlappingFiles, hrange, Option.bind_some, hresult]
  · intro g hg hnot f hf
    exact (hout g hg hnot).mono (ha.trans (hisRange.le_lo f hf)) ((hisRange.hi_le f hf).trans hb)
  · intro hlevel g hg hnot f hf
    exact (hout g hg hnot).mono (hover.within hlevel f hf).1 (hover.within hlevel f hf).2
  · -- The files by which the range has grown are among those that were found.
    have hset : seeds ∪ {f | f ∈ result} = (seeds ∪ D) ∪ {f | f ∈ result} := by
      ext f
      have hmem : f ∈ D → f ∈ result := fun hf => hover.mem f (hD f hf).1 (hD f hf).2
      simp only [Set.mem_union, Set.mem_ofPred_eq]
      tauto
    rw [hset]
    exact hgrown.union hspans' fun f hf => not_outOfRange_iff.mp (hover.meets f hf)
  · intro hlevel g hg
    obtain ⟨rfl, rfl⟩ := hdeep hlevel.ne'
    obtain ⟨hle, hge⟩ := not_outOfRange_iff.mp (hover.meets g hg)
    have hvalid : g.lo ≤ g.hi := h.rank_smallest_le (hover.sublist.subset hg)
    obtain ⟨f, hf, hmeets⟩ := hseeds g.lo g.hi hvalid
      (hspans.1.imp fun f hf => ⟨hf.1, hf.2.trans hle⟩)
      (hspans.2.imp fun f hf => ⟨hf.1, hge.trans hf.2⟩)
    exact ⟨f, hf, fun hapart => not_apart_iff.mpr hmeets hapart.symm⟩

theorem Ordered.not_apart_self (h : v.Ordered) (hf : f ∈ v.files level) : ¬Apart f f := by
  have hvalid := h.rank_smallest_le hf
  rintro (hlt | hlt)
  · exact hlt.not_ge hvalid
  · exact hlt.not_ge hvalid

theorem Closes.mem (hclose : v.Closes level inputs result) (h : v.Ordered) (hf : f ∈ v.files level)
    (hinputs : f ∈ inputs) : f ∈ result := by
  by_contra hnot
  exact h.not_apart_self hf (hclose.apart f hf hnot f hinputs)

/-- The other files of the level are apart from those that were found. -/
theorem Closes.apart_result (hclose : v.Closes level inputs result) (h : v.Ordered) :
    ∀ g ∈ v.files level, g ∉ result → ∀ f ∈ result, Apart f g := by
  intro g hg hnot f hf
  rcases Nat.eq_zero_or_pos level with hlevel | hlevel
  · exact hclose.apart_zero hlevel g hg hnot f hf
  · have hne : g ≠ f := fun heq => hnot (heq ▸ hf)
    exact h.apart hlevel hg (hclose.sublist.subset hf) hne

structure Picked (v : Version) (level : ℕ) (inputs0 inputs1 : List FileMetaData) : Prop where
  ne_nil : inputs0 ≠ []
  sublist0 : inputs0.Sublist (v.files level)
  sublist1 : inputs1.Sublist (v.files (level + 1))
  connected : Connected lo hi {f | f ∈ inputs0 ++ inputs1}
  apart0 : ∀ g ∈ v.files level, g ∉ inputs0 → ∀ f ∈ inputs0, Apart f g
  apart1 : ∀ g ∈ v.files (level + 1), g ∉ inputs1 → ∀ f ∈ inputs0, Apart f g

theorem setOf_mem_append (l l' : List FileMetaData) :
    {f | f ∈ l ++ l'} = {f | f ∈ l} ∪ {f | f ∈ l'} := by
  ext f
  simp

theorem Ordered.picked_setupOtherInputs (h : v.Ordered) (hne : inputs0 ≠ [])
    (hsublist : inputs0.Sublist (v.files level)) (hconnected : Connected lo hi {f | f ∈ inputs0})
    (hapart : ∀ g ∈ v.files level, g ∉ inputs0 → ∀ f ∈ inputs0, Apart f g) :
    ∃ inputs0' inputs1', v.setupOtherInputs level inputs0 = some (inputs0', inputs1') ∧
      v.Picked level inputs0' inputs1' := by
  obtain ⟨inputs1, hinputs1, hclose1, hconnected1, hmet⟩ :=
    h.closes_overlappingFiles (level + 1) hne hconnected fun _ hf => hf
  rw [← setOf_mem_append] at hconnected1
  have hpicked : v.Picked level inputs0 inputs1 :=
    ⟨hne, hsublist, hclose1.sublist, hconnected1, hapart, hclose1.apart⟩
  rw [setupOtherInputs, hinputs1, Option.bind_some]
  by_cases hnil : inputs1 = []
  · rw [if_pos hnil]
    exact ⟨inputs0, inputs1, rfl, hpicked⟩
  obtain ⟨expanded0, hexpanded0, hclose0, hconnected0, -⟩ :=
    h.closes_overlappingFiles level (List.append_ne_nil_of_left_ne_nil hne inputs1) hconnected1
      fun _ hf => hf
  rw [if_neg hnil, hexpanded0, Option.bind_some]
  split
  · have hsubset0 : ∀ f ∈ inputs0, f ∈ expanded0 := fun f hf =>
      hclose0.mem h (hsublist.subset hf) (List.mem_append_left inputs1 hf)
    have hne' : expanded0 ≠ [] := by
      obtain ⟨f, hf⟩ := List.exists_mem_of_ne_nil inputs0 hne
      exact List.ne_nil_of_mem (hsubset0 f hf)
    obtain ⟨expanded1, hexpanded1, hclose1', hconnected1', -⟩ :=
      h.closes_overlappingFiles (level + 1) hne' hconnected0 fun _ hf => .inr hf
    rw [hexpanded1, Option.map_some]
    split
    · -- A file of the next level that an input meets is met by the expanded inputs too.
      have hsubset1 : ∀ g ∈ inputs1, g ∈ expanded1 := by
        intro g hg
        by_contra hnot
        obtain ⟨f, hf, hmeets⟩ := hmet (Nat.succ_pos level) g hg
        exact hmeets (hclose1'.apart g (hclose1.sublist.subset hg) hnot f (hsubset0 f hf))
      have hset : {f | f ∈ inputs0 ++ inputs1} ∪ {f | f ∈ expanded0} ∪ {f | f ∈ expanded1} =
          {f | f ∈ expanded0 ++ expanded1} := by
        ext f
        have hmem0 := hsubset0 f
        have hmem1 := hsubset1 f
        simp only [Set.mem_union, Set.mem_ofPred_eq, List.mem_append]
        tauto
      rw [hset] at hconnected1'
      exact ⟨expanded0, expanded1, rfl, hne', hclose0.sublist, hclose1'.sublist, hconnected1',
        hclose0.apart_result h, hclose1'.apart⟩
    · exact ⟨inputs0, inputs1, rfl, hpicked⟩
  · exact ⟨inputs0, inputs1, rfl, hpicked⟩

/-- The inputs from which `PickCompaction` starts. -/
theorem Ordered.exists_inputs0 (h : v.Ordered) (hf : f ∈ v.files level) :
    ∃ inputs0, (if level = 0 then v.overlappingFiles 0 [f] else some [f]) = some inputs0 ∧
      inputs0 ≠ [] ∧ inputs0.Sublist (v.files level) ∧ Connected lo hi {g | g ∈ inputs0} ∧
      ∀ g ∈ v.files level, g ∉ inputs0 → ∀ x ∈ inputs0, Apart x g := by
  have hset : {g | g ∈ [f]} = {f} := by
    ext g
    simp
  have hsingle : Connected lo hi {g | g ∈ [f]} := by
    rw [hset]
    exact connected_singleton lo hi f
  by_cases hlevel : level = 0
  · subst hlevel
    obtain ⟨inputs0, hinputs0, hclose, hconnected, -⟩ :=
      h.closes_overlappingFiles 0 (List.cons_ne_nil f []) hsingle fun _ hg => hg
    have hmem : f ∈ inputs0 := hclose.mem h hf List.mem_cons_self
    have hunion : {g | g ∈ [f]} ∪ {g | g ∈ inputs0} = {g | g ∈ inputs0} := by
      ext g
      simp only [Set.mem_union, Set.mem_ofPred_eq, List.mem_singleton, or_iff_right_iff_imp]
      rintro rfl
      exact hmem
    rw [hunion] at hconnected
    exact ⟨inputs0, by rw [if_pos rfl, hinputs0], List.ne_nil_of_mem hmem, hclose.sublist,
      hconnected, hclose.apart_result h⟩
  · refine ⟨[f], by rw [if_neg hlevel], List.cons_ne_nil f [], List.singleton_sublist.mpr hf,
      hsingle, fun g hg hnot x hx => ?_⟩
    have hne : g ≠ x := fun heq => hnot (heq ▸ hx)
    rw [List.mem_singleton.mp hx] at hne ⊢
    exact h.apart (Nat.pos_of_ne_zero hlevel) hg hf hne

/-- `PickCompaction` succeeds, and its inputs are connected and apart from the other files. -/
theorem Ordered.picked_pickCompaction (h : v.Ordered) (hf : f ∈ v.files level)
    (smallestSnapshot : ℕ) :
    ∃ c, v.pickCompaction level f smallestSnapshot = some c ∧ v.Picked level c.inputs0 c.inputs1 ∧
      c.level = level ∧ c.inputVersion = v ∧ c.smallestSnapshot = smallestSnapshot := by
  obtain ⟨inputs0, hinputs0, hne, hsublist, hconnected, hapart⟩ := h.exists_inputs0 hf
  obtain ⟨inputs0', inputs1', hsetup, hpicked⟩ :=
    h.picked_setupOtherInputs hne hsublist hconnected hapart
  obtain ⟨grandparents, hgrandparents⟩ : ∃ grandparents,
      (if level + 2 < kNumLevels then v.overlappingFiles (level + 2) (inputs0' ++ inputs1')
        else some []) = some grandparents := by
    split
    · obtain ⟨grandparents, hgrandparents, -⟩ := h.closes_overlappingFiles (level + 2)
        (List.append_ne_nil_of_left_ne_nil hpicked.ne_nil inputs1') hpicked.connected fun _ hg => hg
      exact ⟨grandparents, hgrandparents⟩
    · exact ⟨[], rfl⟩
  refine ⟨⟨level, inputs0', inputs1', grandparents, v, smallestSnapshot⟩, ?_, hpicked, rfl, rfl, rfl⟩
  rw [pickCompaction, hinputs0, Option.bind_some, hsetup, Option.bind_some]
  dsimp only
  rw [hgrandparents, Option.map_some]

end Version

end Leveldb

end UnifyFramework
