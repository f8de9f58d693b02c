import Mathlib.Data.List.Find
import UnifyFramework.Leveldb.Version

/-!
# Lookups in a version

In a version each level is newer than the deeper ones, and a file of level zero with a larger
number is newer than the others. Therefore the first entry a lookup finds is the newest one that
is not newer than the sequence number.
-/

namespace UnifyFramework

namespace Leveldb

open Versioned

namespace FileMetaData

structure Represents (f : FileMetaData) (es : List Entry) : Prop where
  contents_eq : f.contents = es.map entryPair
  sorted : es.Pairwise EntryBefore
  fits : ∀ e ∈ es, EntryFits e
  smallest_eq : es.head?.map entryKey = some f.smallest
  largest_eq : es.getLast?.map entryKey = some f.largest

def entries (f : FileMetaData) : Set Entry := {e | EntryFits e ∧ entryPair e ∈ f.contents}

variable {f : FileMetaData} {es : List Entry} {e : Entry} {k : Slice} {s : ℕ}

theorem Represents.entries_eq (h : f.Represents es) : f.entries = {e | e ∈ es} := by
  ext e
  constructor
  · rintro ⟨hfits, hmem⟩
    rw [h.contents_eq, List.mem_map] at hmem
    obtain ⟨e', he', heq⟩ := hmem
    rwa [← entryPair_inj (h.fits e' he') hfits heq]
  · intro he
    refine ⟨h.fits e he, ?_⟩
    rw [h.contents_eq]
    exact List.mem_map_of_mem he

theorem extractUserKey_entryKey (e : Entry) : extractUserKey (entryKey e) = e.key :=
  extractUserKey_appendInternalKey _

theorem Represents.exists_smallest (h : f.Represents es) :
    ∃ e ∈ es, f.smallest = entryKey e ∧ ∀ e' ∈ es, e' = e ∨ EntryBefore e e' := by
  obtain ⟨e, hhead, hkey⟩ := Option.map_eq_some_iff.mp h.smallest_eq
  obtain ⟨es', rfl⟩ := List.head?_eq_some_iff.mp hhead
  refine ⟨e, List.mem_cons_self, hkey.symm, fun e' he' => ?_⟩
  rcases List.mem_cons.mp he' with rfl | he'
  · exact .inl rfl
  · exact .inr (List.rel_of_pairwise_cons h.sorted he')

theorem Represents.exists_largest (h : f.Represents es) :
    ∃ e ∈ es, f.largest = entryKey e ∧ ∀ e' ∈ es, e' = e ∨ EntryBefore e' e := by
  obtain ⟨e, hlast, hkey⟩ := Option.map_eq_some_iff.mp h.largest_eq
  obtain ⟨es', rfl⟩ := List.getLast?_eq_some_iff.mp hlast
  refine ⟨e, List.mem_append_right _ List.mem_cons_self, hkey.symm, fun e' he' => ?_⟩
  rcases List.mem_append.mp he' with he' | he'
  · exact .inr ((List.pairwise_append.mp h.sorted).2.2 e' he' e List.mem_cons_self)
  · exact .inl (List.mem_singleton.mp he')

theorem rank_le_of_before {e e' : Entry} (h : EntryBefore e e') : rank e.key ≤ rank e'.key := by
  rcases h with hlt | ⟨heq, -⟩
  · exact ((bytewiseCompare_eq_lt_iff _ _).mp hlt).le
  · rw [heq]

theorem Represents.rank_mem (h : f.Represents es) (he : e ∈ es) :
    rank f.smallestUserKey ≤ rank e.key ∧ rank e.key ≤ rank f.largestUserKey := by
  obtain ⟨a, -, hsmallest, ha⟩ := h.exists_smallest
  obtain ⟨b, -, hlargest, hb⟩ := h.exists_largest
  rw [smallestUserKey, largestUserKey, hsmallest, hlargest, extractUserKey_entryKey,
    extractUserKey_entryKey]
  constructor
  · rcases ha e he with rfl | hbefore
    · exact le_rfl
    · exact rank_le_of_before hbefore
  · rcases hb e he with rfl | hbefore
    · exact le_rfl
    · exact rank_le_of_before hbefore

theorem ofContents_represents (hes : es ≠ []) (hsorted : es.Pairwise EntryBefore)
    (hfits : ∀ e ∈ es, EntryFits e) (number fileSize : ℕ) :
    ∃ f, ofContents number fileSize (es.map entryPair) = some f ∧ f.Represents es ∧
      f.number = number := by
  have hfirst : es.head? = some (es.head hes) := List.head?_eq_some_head hes
  have hlast : es.getLast? = some (es.getLast hes) := List.getLast?_eq_some_getLast hes
  refine ⟨⟨number, fileSize, entryKey (es.head hes), entryKey (es.getLast hes), es.map entryPair⟩, ?_,
    ⟨rfl, hsorted, hfits, ?_, ?_⟩, rfl⟩
  · rw [ofContents, List.head?_map, List.getLast?_map, hfirst, hlast]
    rfl
  · rw [hfirst]
    rfl
  · rw [hlast]
    rfl

end FileMetaData

namespace SaverState

def answer : SaverState → Option (Option Slice)
  | found value => some (some value)
  | deleted => some none
  | _ => none

def ofAnswer : Option (Option Slice) → SaverState
  | none => notFound
  | some none => deleted
  | some (some value) => found value

theorem answer_ofAnswer (o : Option (Option Slice)) : (ofAnswer o).answer = o := by
  rcases o with _ | _ | _ <;> rfl

theorem ends_ofAnswer (o : Option (Option Slice)) :
    (ofAnswer o).ends = o.map fun value => ofAnswer (some value) := by
  rcases o with _ | _ | _ <;> rfl

theorem getD_map_ofAnswer (o : Option (Option Slice)) :
    (o.map fun value => ofAnswer (some value)).getD notFound = ofAnswer o := by
  rcases o with _ | _ | _ <;> rfl

end SaverState

theorem FileMetaData.Represents.get_eq {f : FileMetaData} {es : List Entry} {s : ℕ}
    (h : f.Represents es) (k : Slice) (hs : s ≤ kMaxSequenceNumber) :
    f.get k (lookupKey k s) = .ofAnswer (lookup bytewiseCompare es k s) := by
  have hfind : f.contents.find? (fun entry => internalKeyCompare entry.1 (lookupKey k s) ≠ .lt) =
      (seek bytewiseCompare es k s).map entryPair := by
    rw [h.contents_eq, List.find?_map, seek]
    refine congrArg (Option.map entryPair) ?_
    refine List.find?_congr fun e he => ?_
    simp only [Function.comp_apply, entryPair, internalKeyCompare_lookupKey_ne (h.fits e he).seq_le hs,
      Bool.decide_or, Bool.decide_and]
  rw [FileMetaData.get, hfind, lookup]
  cases hseek : seek bytewiseCompare es k s with
  | none => rfl
  | some e =>
      have he : EntryFits e := h.fits e (List.mem_of_find?_eq_some hseek)
      have hparse : parseInternalKey (entryKey e) = some ⟨e.key, e.seq, entryType e⟩ :=
        parseInternalKey_appendInternalKey he.seq_le
      simp only [Option.map_some, Option.bind_some, entryPair, saveValue, hparse,
        Std.LawfulEqCmp.compare_eq_iff_eq]
      by_cases hkey : e.key = k
      · simp only [hkey, if_true]
        rw [entryType, entryValue]
        cases e.value <;> rfl
      · simp only [hkey, if_false]
        rfl

namespace Version

def entries (v : Version) (level : ℕ) : Set Entry := {e | ∃ f ∈ v.files level, e ∈ f.entries}

def allEntries (v : Version) : Set Entry := {e | ∃ level, e ∈ v.entries level}

structure Ordered (v : Version) : Prop where
  represents : ∀ level, ∀ f ∈ v.files level, ∃ es, f.Represents es
  nodup : (v.files 0).Nodup
  number_inj : ∀ i, ∀ f ∈ v.files i, ∀ j, ∀ g ∈ v.files j, f.number = g.number → i = j ∧ f = g
  newest : ∀ f ∈ v.files 0, ∀ g ∈ v.files 0, g.number < f.number → Newer f.entries g.entries
  disjoint : ∀ level, 0 < level → (v.files level).Pairwise fun f g =>
    rank f.largestUserKey < rank g.smallestUserKey
  deeper : ∀ i j, i < j → Newer (v.entries i) (v.entries j)
  files_eq_nil : ∀ level, kNumLevels ≤ level → v.files level = []

variable {v : Version} {k : Slice} {s : ℕ}

theorem Ordered.answers_file (h : v.Ordered) {level : ℕ} {f : FileMetaData}
    (hf : f ∈ v.files level) (k : Slice) (hs : s ≤ kMaxSequenceNumber) :
    Answers f.entries k s (f.get k (lookupKey k s)).answer ∧
      (f.get k (lookupKey k s)).ends =
        (f.get k (lookupKey k s)).answer.map fun value => .ofAnswer (some value) := by
  obtain ⟨es, hes⟩ := h.represents level f hf
  rw [hes.get_eq k hs, SaverState.answer_ofAnswer, SaverState.ends_ofAnswer, hes.entries_eq]
  exact ⟨answers_lookup hes.sorted k s, rfl⟩

/-- A key outside the range of a file has no entry there. -/
theorem Ordered.rank_mem (h : v.Ordered) {level : ℕ} {f : FileMetaData} (hf : f ∈ v.files level)
    {e : Entry} (he : e ∈ f.entries) :
    rank f.smallestUserKey ≤ rank e.key ∧ rank e.key ≤ rank f.largestUserKey := by
  obtain ⟨es, hes⟩ := h.represents level f hf
  rw [hes.entries_eq] at he
  exact hes.rank_mem he

def levelAnswer (v : Version) (k : Slice) (s : ℕ) (level : ℕ) : Option (Option Slice) :=
  (v.searchedFiles k (lookupKey k s) level).findSome? fun f => (f.get k (lookupKey k s)).answer

theorem Ordered.answers_zero (h : v.Ordered) (k : Slice) (hs : s ≤ kMaxSequenceNumber) :
    Answers (v.entries 0) k s (v.levelAnswer k s 0) := by
  rw [levelAnswer, searchedFiles, if_pos rfl]
  set overlapping := (v.files 0).filter fun f => decide (bytewiseCompare k f.smallestUserKey ≠ .lt ∧
    bytewiseCompare k f.largestUserKey ≠ .gt) with hoverlapping
  set sorted := overlapping.mergeSort fun a b => decide (b.number ≤ a.number) with hsorted
  have hmem : ∀ f ∈ sorted, f ∈ v.files 0 := fun f hf =>
    (List.mem_filter.mp (List.mem_mergeSort.mp hf)).1
  have hnodup : sorted.Nodup := (List.mergeSort_perm _ _).nodup_iff.mpr (h.nodup.filter _)
  have hdescend : sorted.Pairwise fun a b => decide (b.number ≤ a.number) = true := by
    refine List.pairwise_mergeSort ?_ ?_ _
    · simp only [decide_eq_true_eq]
      exact fun a b c hab hbc => hbc.trans hab
    · simp only [Bool.or_eq_true, decide_eq_true_eq]
      exact fun a b => Nat.le_total _ _
  have hnewer : sorted.Pairwise fun f g => Newer f.entries g.entries := by
    refine (hnodup.and hdescend).imp_of_mem fun {f g} hf hg ⟨hne, hle⟩ => ?_
    refine h.newest f (hmem f hf) g (hmem g hg) ?_
    rw [decide_eq_true_eq] at hle
    exact hle.lt_of_ne fun heq => hne (h.number_inj 0 f (hmem f hf) 0 g (hmem g hg) heq.symm).2
  have hanswers := answers_findSome hnewer fun f hf => (h.answers_file (hmem f hf) k hs).1
  refine hanswers.congr fun e hkey _ => ?_
  refine ⟨fun ⟨f, hf, he⟩ => ⟨f, hmem f hf, he⟩, ?_⟩
  rintro ⟨f, hf, he⟩
  obtain ⟨hsmallest, hlargest⟩ := h.rank_mem hf he
  refine ⟨f, List.mem_mergeSort.mpr (List.mem_filter.mpr ⟨hf, ?_⟩), he⟩
  rw [hkey] at hsmallest hlargest
  rw [decide_eq_true_eq, ne_eq, ne_eq, bytewiseCompare_eq_lt_iff, bytewiseCompare_eq_gt_iff, not_lt,
    not_lt]
  exact ⟨hsmallest, hlargest⟩

/-- A file that stands before what is looked up has nothing for it. -/
theorem Ordered.noneVisible_of_lt (h : v.Ordered) {level : ℕ} {f : FileMetaData}
    (hf : f ∈ v.files level) (hs : s ≤ kMaxSequenceNumber)
    (hlt : internalKeyCompare f.largest (lookupKey k s) = .lt) : NoneVisible f.entries k s := by
  obtain ⟨es, hes⟩ := h.represents level f hf
  obtain ⟨e, he, hlargest, hlast⟩ := hes.exists_largest
  rw [hlargest, internalKeyCompare_lookupKey (hes.fits e he).seq_le hs] at hlt
  rw [hes.entries_eq]
  intro e' he' hkey
  rcases hlast e' he' with rfl | hbefore
  · exact hlt.elim (fun hlt => absurd (congrArg rank hkey) hlt.ne) And.right
  · have hle := FileMetaData.rank_le_of_before hbefore
    rw [hkey] at hle
    obtain ⟨heq, hseq⟩ := hlt.resolve_left hle.not_gt
    rcases hbefore with hlt' | ⟨-, hseq'⟩
    · exact absurd (hkey.trans heq.symm) (ne_of_cmp_lt hlt')
    · exact hseq.trans hseq'

theorem Ordered.rank_largest (h : v.Ordered) {level : ℕ} {f : FileMetaData}
    (hf : f ∈ v.files level) (hs : s ≤ kMaxSequenceNumber) (k : Slice) :
    (internalKeyCompare f.largest (lookupKey k s) = .lt → rank f.largestUserKey ≤ rank k) ∧
      (rank f.largestUserKey < rank k → internalKeyCompare f.largest (lookupKey k s) = .lt) := by
  obtain ⟨es, hes⟩ := h.represents level f hf
  obtain ⟨e, he, hlargest, -⟩ := hes.exists_largest
  rw [FileMetaData.largestUserKey, hlargest, FileMetaData.extractUserKey_entryKey,
    internalKeyCompare_lookupKey (hes.fits e he).seq_le hs]
  refine ⟨?_, .inl⟩
  rintro (hlt | ⟨heq, -⟩)
  · exact hlt.le
  · rw [heq]

theorem Ordered.rank_smallest_le (h : v.Ordered) {level : ℕ} {f : FileMetaData}
    (hf : f ∈ v.files level) : rank f.smallestUserKey ≤ rank f.largestUserKey := by
  obtain ⟨es, hes⟩ := h.represents level f hf
  obtain ⟨e, he, -⟩ := hes.exists_smallest
  exact (hes.rank_mem he).1.trans (hes.rank_mem he).2

/-- `FindFile` splits the files of a level at what is looked up. -/
theorem Ordered.isPlace_findFile (h : v.Ordered) {level : ℕ} (hlevel : 0 < level)
    (hs : s ≤ kMaxSequenceNumber) (k : Slice) :
    Search.IsPlace
      (fun mid =>
        match (v.files level)[mid]? with
        | some f => internalKeyCompare f.largest (lookupKey k s) = .lt
        | none => false)
      0 (v.files level).length (findFile (v.files level) (lookupKey k s)) := by
  refine Search.isPlace_bisect (fun i j hij hj hbefore => ?_) (Nat.zero_le _) (Nat.sub_le _ _)
  rcases hij.eq_or_lt with rfl | hlt
  · exact hbefore
  have hi : i < (v.files level).length := hlt.trans hj
  rw [List.getElem?_eq_getElem hj] at hbefore
  rw [List.getElem?_eq_getElem hi]
  simp only [decide_eq_true_eq] at hbefore ⊢
  have hfi := List.getElem_mem hi
  have hfj := List.getElem_mem hj
  refine (h.rank_largest hfi hs k).2 ?_
  calc rank (v.files level)[i].largestUserKey
      < rank (v.files level)[j].smallestUserKey :=
        List.pairwise_iff_getElem.mp (h.disjoint level hlevel) i j hi hj hlt
    _ ≤ rank (v.files level)[j].largestUserKey := h.rank_smallest_le hfj
    _ ≤ rank k := (h.rank_largest hfj hs k).1 hbefore

/-- Only the file `FindFile` finds can have the entry that is looked up. -/
theorem Ordered.mem_findFile (h : v.Ordered) {level : ℕ} (hlevel : 0 < level)
    (hs : s ≤ kMaxSequenceNumber) {e : Entry} (he : e ∈ v.entries level) (hkey : e.key = k)
    (hle : e.seq ≤ s) :
    ∃ f, (v.files level)[findFile (v.files level) (lookupKey k s)]? = some f ∧ e ∈ f.entries := by
  have hplace := h.isPlace_findFile hlevel hs k
  set r := findFile (v.files level) (lookupKey k s) with hr
  obtain ⟨g, hg, heg⟩ := he
  obtain ⟨i, hi, rfl⟩ := List.getElem_of_mem hg
  rcases lt_trichotomy i r with hlt | rfl | hgt
  · have hbefore := hplace.before_of_lt i (Nat.zero_le _) hlt
    rw [List.getElem?_eq_getElem hi] at hbefore
    have hnone := h.noneVisible_of_lt hg hs (of_decide_eq_true hbefore)
    exact absurd hle (Nat.not_le_of_lt (hnone e heg hkey))
  · exact ⟨_, List.getElem?_eq_getElem hi, heg⟩
  · -- The file found reaches up to the key, so the later ones are behind it.
    have hrlt := hgt.trans hi
    have hnot := hplace.not_before r le_rfl hrlt
    rw [List.getElem?_eq_getElem hrlt] at hnot
    have hfr := List.getElem_mem hrlt
    have hlargest : rank k ≤ rank (v.files level)[r].largestUserKey :=
      not_lt.mp fun hlt => of_decide_eq_false hnot ((h.rank_largest hfr hs k).2 hlt)
    have hsmallest := (h.rank_mem hg heg).1
    have hdisjoint := List.pairwise_iff_getElem.mp (h.disjoint level hlevel) r i hrlt hi hgt
    rw [hkey] at hsmallest
    exact absurd (hdisjoint.trans_le hsmallest) hlargest.not_gt

theorem Ordered.answers_deeper (h : v.Ordered) (k : Slice) (hs : s ≤ kMaxSequenceNumber)
    {level : ℕ} (hlevel : 0 < level) :
    Answers (v.entries level) k s (v.levelAnswer k s level) := by
  rw [levelAnswer, searchedFiles, if_neg hlevel.ne']
  cases hfind : (v.files level)[findFile (v.files level) (lookupKey k s)]? with
  | none =>
      refine .notFound fun e he hkey => Nat.lt_of_not_le fun hle => ?_
      obtain ⟨f, hf, -⟩ := h.mem_findFile hlevel hs he hkey hle
      rw [hfind] at hf
      cases hf
  | some f =>
      have hf : f ∈ v.files level := List.mem_of_getElem? hfind
      have honly : ∀ e ∈ v.entries level, e.key = k → e.seq ≤ s → e ∈ f.entries := by
        intro e he hkey hle
        obtain ⟨g, hg, heg⟩ := h.mem_findFile hlevel hs he hkey hle
        rw [hfind, Option.some.injEq] at hg
        rwa [hg]
      by_cases hbefore : bytewiseCompare k f.smallestUserKey = .lt
      · simp only [if_pos hbefore]
        refine .notFound fun e he hkey => Nat.lt_of_not_le fun hle => ?_
        have hrank := (h.rank_mem hf (honly e he hkey hle)).1
        rw [hkey] at hrank
        exact absurd ((bytewiseCompare_eq_lt_iff _ _).mp hbefore) hrank.not_gt
      · have hsingle : [f].findSome? (fun f => (f.get k (lookupKey k s)).answer) =
            (f.get k (lookupKey k s)).answer := by
          rw [List.findSome?_cons]
          cases (f.get k (lookupKey k s)).answer <;> rfl
        simp only [if_neg hbefore, hsingle]
        refine (h.answers_file hf k hs).1.congr fun e hkey hle => ?_
        exact ⟨fun he => ⟨f, hf, he⟩, fun he => honly e he hkey hle⟩

theorem searchedFiles_subset (v : Version) (k ikey : Slice) (level : ℕ) :
    v.searchedFiles k ikey level ⊆ v.files level := by
  intro f hf
  rw [searchedFiles] at hf
  split at hf
  · rename_i hzero
    rw [hzero]
    exact (List.mem_filter.mp (List.mem_mergeSort.mp hf)).1
  · split at hf
    · exact absurd hf List.not_mem_nil
    · rename_i hfind
      split at hf
      · exact absurd hf List.not_mem_nil
      · rw [List.mem_singleton.mp hf]
        exact List.mem_of_getElem? hfind

theorem findSome_eq_map {α β γ : Type*} {l : List α} {f : α → Option γ} {g : α → Option β}
    {φ : β → γ} (h : ∀ x ∈ l, f x = (g x).map φ) : l.findSome? f = (l.findSome? g).map φ := by
  induction l with
  | nil => rfl
  | cons x l ih =>
      rw [List.findSome?_cons, List.findSome?_cons, h x List.mem_cons_self,
        ih fun y hy => h y (List.mem_cons_of_mem x hy)]
      cases g x <;> rfl

/-- A lookup finds the newest entry for the key that is not newer than the sequence number. -/
theorem Ordered.answers_get (h : v.Ordered) (k : Slice) (hs : s ≤ kMaxSequenceNumber) :
    ∃ o, Answers v.allEntries k s o ∧ v.get k s = .ofAnswer o := by
  refine ⟨(List.range kNumLevels).findSome? (v.levelAnswer k s), ?_, ?_⟩
  · have hnewer : (List.range kNumLevels).Pairwise fun i j => Newer (v.entries i) (v.entries j) :=
      List.pairwise_lt_range.imp fun hlt => h.deeper _ _ hlt
    have hlevel : ∀ level ∈ List.range kNumLevels,
        Answers (v.entries level) k s (v.levelAnswer k s level) := by
      intro level _
      rcases Nat.eq_zero_or_pos level with rfl | hpos
      · exact h.answers_zero k hs
      · exact h.answers_deeper k hs hpos
    refine (answers_findSome hnewer hlevel).congr fun e _ _ => ?_
    refine ⟨fun ⟨level, _, he⟩ => ⟨level, he⟩, ?_⟩
    rintro ⟨level, he⟩
    refine ⟨level, List.mem_range.mpr (Nat.lt_of_not_le fun hle => ?_), he⟩
    obtain ⟨f, hf, -⟩ := he
    rw [h.files_eq_nil level hle] at hf
    exact List.not_mem_nil hf
  · have hends : ∀ level, (v.searchedFiles k (lookupKey k s) level).findSome?
        (fun f => (f.get k (lookupKey k s)).ends) =
          (v.levelAnswer k s level).map fun value => .ofAnswer (some value) := fun level =>
      findSome_eq_map fun f hf => (h.answers_file (v.searchedFiles_subset k _ level hf) k hs).2
    rw [Version.get, findSome_eq_map fun level _ => hends level, SaverState.getD_map_ofAnswer]

end Version

end Leveldb

end UnifyFramework
