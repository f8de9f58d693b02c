import UnifyFramework.Leveldb.MemTable
import UnifyFramework.Leveldb.VersionEdit

/-!
# Tables in memory that become files

A table in memory is written to a file of level zero, or of a deeper level as long as no file of
the levels passed over overlaps it. What it holds is newer than everything in the files, so the
version stays in order.
-/

namespace UnifyFramework

namespace Leveldb

open Versioned

/-- `BuildTable`: no file for an empty table. -/
def buildTable (number fileSize : ℕ) (m : MemTable) : Option FileMetaData :=
  FileMetaData.ofContents number fileSize m.contents

/-- `WriteLevel0Table`: the files the edit gets, at the level that is picked if there is a base. -/
def writeLevel0Table (number fileSize : ℕ) (m : MemTable) (base : Option Version) :
    Option (List (ℕ × FileMetaData)) :=
  match buildTable number fileSize m with
  | none => some []
  | some f =>
      match base with
      | none => some [(0, f)]
      | some v =>
          (v.pickLevelForMemTableOutput f.smallestUserKey f.largestUserKey).map fun level =>
            [(level, f)]

theorem buildTable_nil {m : MemTable} (h : m.Represents []) (number fileSize : ℕ) :
    buildTable number fileSize m = none := by
  rw [buildTable, MemTable.contents_eq h]
  rfl

theorem buildTable_cons {m : MemTable} {es : List Entry} (h : m.Represents es) (hes : es ≠ [])
    (number fileSize : ℕ) :
    ∃ f, buildTable number fileSize m = some f ∧ f.Represents es ∧ f.number = number := by
  rw [buildTable, MemTable.contents_eq h]
  exact FileMetaData.ofContents_represents hes h.sorted h.fits number fileSize

def OutOfRange (userBegin userEnd : Slice) (f : FileMetaData) : Prop :=
  rank f.largestUserKey < rank userBegin ∨ rank userEnd < rank f.smallestUserKey

namespace Version

variable {v : Version} {a b : Slice} {level : ℕ} {f g : FileMetaData}

theorem outOfRange_of_not_any
    (h : ((v.files 0).any fun f => !(afterFile a f || beforeFile b f)) = false) :
    ∀ f ∈ v.files 0, OutOfRange a b f := by
  intro f hf
  rw [List.any_eq_false] at h
  have hf := h f hf
  rw [Bool.not_eq_true, Bool.not_eq_false', Bool.or_eq_true, afterFile, beforeFile, decide_eq_true_eq,
    decide_eq_true_eq, bytewiseCompare_eq_gt_iff, bytewiseCompare_eq_lt_iff] at hf
  exact hf

theorem Ordered.rank_largest_lt (h : v.Ordered) (hf : f ∈ v.files level)
    (hlt : internalKeyCompare f.largest (lookupKey a kMaxSequenceNumber) = .lt) :
    rank f.largestUserKey < rank a := by
  obtain ⟨es, hes⟩ := h.represents level f hf
  obtain ⟨e, he, hlargest, -⟩ := hes.exists_largest
  have hseq := (hes.fits e he).seq_le
  rw [hlargest, internalKeyCompare_lookupKey hseq le_rfl] at hlt
  rw [FileMetaData.largestUserKey, hlargest, FileMetaData.extractUserKey_entryKey]
  exact hlt.resolve_right fun h => absurd h.2 hseq.not_gt

/-- A level without overlap has no file in the range. -/
theorem Ordered.outOfRange (h : v.Ordered) (hoverlap : v.overlapInLevel level a b = false) :
    ∀ f ∈ v.files level, OutOfRange a b f := by
  rw [overlapInLevel, someFileOverlapsRange] at hoverlap
  rcases Nat.eq_zero_or_pos level with rfl | hpos
  · exact outOfRange_of_not_any (by simpa using hoverlap)
  simp only [hpos, decide_true, if_true] at hoverlap
  have hplace := h.isPlace_findFile hpos le_rfl a
  set r := findFile (v.files level) (lookupKey a kMaxSequenceNumber) with hr
  intro f hf
  obtain ⟨i, hi, rfl⟩ := List.getElem_of_mem hf
  rcases Nat.lt_or_ge i r with hlt | hge
  · have hbefore := hplace.before_of_lt i (Nat.zero_le _) hlt
    rw [List.getElem?_eq_getElem hi] at hbefore
    exact .inl (h.rank_largest_lt hf (of_decide_eq_true hbefore))
  · have hrlt : r < (v.files level).length := hge.trans_lt hi
    rw [List.getElem?_eq_getElem hrlt, Bool.not_eq_false', beforeFile, decide_eq_true_eq,
      bytewiseCompare_eq_lt_iff] at hoverlap
    rcases hge.eq_or_lt with rfl | hgt
    · exact .inr hoverlap
    · have hdisjoint := List.pairwise_iff_getElem.mp (h.disjoint level hpos) r i hrlt hi hgt
      have hfr := h.rank_smallest_le (List.getElem_mem hrlt)
      exact .inr (hoverlap.trans (hfr.trans_lt hdisjoint))

/-- The level that is picked, and those above it, have no file in the range. -/
def PassedOver (v : Version) (a b : Slice) (level : ℕ) : Prop :=
  ∀ i ≤ level, ∀ f ∈ v.files i, OutOfRange a b f

theorem Ordered.passedOver_pickLevelLoop (h : v.Ordered) {n picked : ℕ}
    (hpassed : v.PassedOver a b level) (hpick : v.pickLevelLoop a b n level = some picked) :
    v.PassedOver a b picked ∧ picked ≤ level + n := by
  induction n generalizing level with
  | zero =>
      rw [pickLevelLoop, Option.some.injEq] at hpick
      rw [← hpick]
      exact ⟨hpassed, le_rfl⟩
  | succ n ih =>
      rw [pickLevelLoop] at hpick
      split at hpick
      · rw [Option.some.injEq] at hpick
        rw [← hpick]
        exact ⟨hpassed, Nat.le_add_right _ _⟩
      · rename_i hoverlap
        have hnext : v.PassedOver a b (level + 1) := by
          intro i hi
          rcases Nat.le_succ_iff.mp hi with hi | rfl
          · exact hpassed i hi
          · exact h.outOfRange (Bool.eq_false_iff.mpr hoverlap)
        have hrest : v.pickLevelLoop a b n (level + 1) = some picked →
            v.PassedOver a b picked ∧ picked ≤ level + (n + 1) := fun hpick => by
          obtain ⟨hpassed', hle⟩ := ih hnext hpick
          exact ⟨hpassed', by omega⟩
        split at hpick
        · obtain ⟨overlaps, -, hpick⟩ := Option.bind_eq_some_iff.mp hpick
          split at hpick
          · rw [Option.some.injEq] at hpick
            rw [← hpick]
            exact ⟨hpassed, Nat.le_add_right _ _⟩
          · exact hrest hpick
        · exact hrest hpick

theorem Ordered.pickLevel (h : v.Ordered) {picked : ℕ}
    (hpick : v.pickLevelForMemTableOutput a b = some picked) :
    picked ≤ kMaxMemCompactLevel ∧ (0 < picked → v.PassedOver a b picked) := by
  rw [pickLevelForMemTableOutput] at hpick
  split at hpick
  · rw [Option.some.injEq] at hpick
    rw [← hpick]
    exact ⟨Nat.zero_le _, fun hpos => absurd hpos (Nat.lt_irrefl 0)⟩
  · rename_i hoverlap
    have hzero : v.PassedOver a b 0 := by
      intro i hi
      rw [Nat.le_zero.mp hi]
      exact h.outOfRange (Bool.eq_false_iff.mpr hoverlap)
    obtain ⟨hpassed, hle⟩ := h.passedOver_pickLevelLoop hzero hpick
    exact ⟨by omega, fun _ => hpassed⟩

section Add

variable {news : List (ℕ × FileMetaData)} {es : List Entry}

theorem mem_apply_add (hdiffer : (VersionEdit.mk [] news).NumbersDiffer) :
    f ∈ (v.apply ⟨[], news⟩).files level ↔ f ∈ v.files level ∨ (level, f) ∈ news := by
  rw [mem_apply hdiffer, VersionEdit.isDeleted]
  simp

theorem mem_allEntries_apply_add (hdiffer : (VersionEdit.mk [] news).NumbersDiffer) {e : Entry} :
    e ∈ (v.apply ⟨[], news⟩).allEntries ↔ e ∈ v.allEntries ∨ ∃ p ∈ news, e ∈ p.2.entries := by
  constructor
  · rintro ⟨level, f, hf, he⟩
    rcases (mem_apply_add hdiffer).mp hf with hf | hf
    · exact .inl ⟨level, f, hf, he⟩
    · exact .inr ⟨(level, f), hf, he⟩
  · rintro (⟨level, f, hf, he⟩ | ⟨⟨level, f⟩, hf, he⟩)
    · exact ⟨level, f, (mem_apply_add hdiffer).mpr (.inl hf), he⟩
    · exact ⟨level, f, (mem_apply_add hdiffer).mpr (.inr hf), he⟩

/-- Files that are numbered on, each newer than all before it, go to level zero. A single one may
go to a deeper level past which it has no overlap. -/
structure Addable (v : Version) (news : List (ℕ × FileMetaData)) : Prop where
  represents : ∀ p ∈ news, ∃ es, p.2.Represents es
  number_lt : ∀ p ∈ news, ∀ i, ∀ g ∈ v.files i, g.number < p.2.number
  newer : ∀ p ∈ news, Newer p.2.entries v.allEntries
  ascending : news.Pairwise fun p q => p.2.number < q.2.number ∧ Newer q.2.entries p.2.entries
  level_lt : ∀ p ∈ news, p.1 < kNumLevels
  passedOver : ∀ p ∈ news, 0 < p.1 →
    news = [p] ∧ v.PassedOver p.2.smallestUserKey p.2.largestUserKey p.1

theorem Addable.numbersDiffer (h : v.Addable news) : (VersionEdit.mk [] news).NumbersDiffer :=
  List.pairwise_map.mpr (h.ascending.imp fun hlt => hlt.1.ne)

theorem Addable.rel (h : v.Addable news) {p q : ℕ × FileMetaData} (hp : p ∈ news) (hq : q ∈ news)
    (hlt : p.2.number < q.2.number) : Newer q.2.entries p.2.entries := by
  have hrel := List.Pairwise.forall_of_forall_of_flip
    (R := fun p q => p.2.number < q.2.number → Newer q.2.entries p.2.entries)
    (fun _ _ hlt => absurd hlt (Nat.lt_irrefl _)) (h.ascending.imp fun h _ => h.2)
    (h.ascending.imp fun h hlt => absurd hlt h.1.not_gt) hp hq
  exact hrel hlt

theorem Addable.eq_of_number (h : v.Addable news) {p q : ℕ × FileMetaData} (hp : p ∈ news)
    (hq : q ∈ news) (heq : p.2.number = q.2.number) : p = q :=
  List.Pairwise.forall_of_forall_of_flip (R := fun p q => p.2.number = q.2.number → p = q)
    (fun _ _ _ => rfl) (h.ascending.imp fun h heq => absurd heq h.1.ne)
    (h.ascending.imp fun h heq => absurd heq h.1.ne') hp hq heq

theorem Ordered.apart (h : v.Ordered) (hlevel : 0 < level) (hf : f ∈ v.files level)
    (hg : g ∈ v.files level) (hne : f ≠ g) : EndsBefore f g ∨ EndsBefore g f :=
  List.Pairwise.forall_of_forall_of_flip (R := fun f g => f ≠ g → EndsBefore f g ∨ EndsBefore g f)
    (fun _ _ hne => absurd rfl hne) ((h.disjoint level hlevel).imp fun hlt _ => .inl hlt)
    ((h.disjoint level hlevel).imp fun hlt _ => .inr hlt) hf hg hne

/-- Files that do not overlap have no key in common. -/
theorem key_ne_of_outOfRange (hout : OutOfRange g.smallestUserKey g.largestUserKey f)
    {es fs : List Entry} (hf : f.Represents es) (hg : g.Represents fs) {e e' : Entry}
    (he : e ∈ f.entries) (he' : e' ∈ g.entries) : e.key ≠ e'.key := by
  intro hkey
  rw [hf.entries_eq] at he
  rw [hg.entries_eq] at he'
  obtain ⟨hsmallest, hlargest⟩ := hf.rank_mem he
  obtain ⟨hsmallest', hlargest'⟩ := hg.rank_mem he'
  rw [hkey] at hsmallest hlargest
  rcases hout with hlt | hlt
  · exact absurd (hsmallest'.trans hlargest) hlt.not_ge
  · exact absurd (hsmallest.trans hlargest') hlt.not_ge

theorem Ordered.add (h : v.Ordered) (hadd : v.Addable news) : (v.apply ⟨[], news⟩).Ordered := by
  have hdiffer := hadd.numbersDiffer
  have hmem : ∀ {level f}, f ∈ (v.apply ⟨[], news⟩).files level ↔
      f ∈ v.files level ∨ (level, f) ∈ news := mem_apply_add hdiffer
  refine h.apply hdiffer ?_ ?_ ?_ ?_ ?_
  · intro level f hf
    refine ⟨hadd.level_lt _ hf, fun hold => ?_, hadd.represents _ hf⟩
    exact absurd (hadd.number_lt _ hf level f hold) (Nat.lt_irrefl _)
  · intro i f hf j g hg heq
    rcases hmem.mp hf with hf | hf <;> rcases hmem.mp hg with hg | hg
    · exact h.number_inj i f hf j g hg heq
    · exact absurd heq (hadd.number_lt _ hg i f hf).ne
    · exact absurd heq (hadd.number_lt _ hf j g hg).ne'
    · exact Prod.mk.inj (hadd.eq_of_number hf hg heq)
  · intro f hf g hg hlt
    rcases hmem.mp hf with hf | hf <;> rcases hmem.mp hg with hg | hg
    · exact h.newest f hf g hg hlt
    · exact absurd hlt (hadd.number_lt _ hg 0 f hf).not_gt
    · exact fun e he e' he' => hadd.newer _ hf e he e' ⟨0, g, hg, he'⟩
    · exact hadd.rel hg hf hlt
  · intro level hlevel f hf g hg hne
    rcases hmem.mp hf with hf | hf <;> rcases hmem.mp hg with hg | hg
    · exact h.apart hlevel hf hg hne
    · exact (hadd.passedOver _ hg hlevel).2 level le_rfl f hf
    · exact ((hadd.passedOver _ hf hlevel).2 level le_rfl g hg).symm
    · rw [(hadd.passedOver _ hg hlevel).1, List.mem_singleton, Prod.mk.injEq] at hf
      exact absurd hf.2 hne
  · rintro i j hij e ⟨f, hf, he⟩ e' ⟨g, hg, he'⟩ hkey
    rcases hmem.mp hf with hf | hf <;> rcases hmem.mp hg with hg | hg
    · exact h.deeper i j hij e ⟨f, hf, he⟩ e' ⟨g, hg, he'⟩ hkey
    · -- A file that was pushed past the level has no key in common with its files.
      obtain ⟨es, hes⟩ := h.represents i f hf
      obtain ⟨fs, hfs⟩ := hadd.represents _ hg
      have hout := (hadd.passedOver _ hg (Nat.zero_lt_of_lt hij)).2 i hij.le f hf
      exact absurd hkey (key_ne_of_outOfRange hout hes hfs he he')
    · exact hadd.newer _ hf e he e' ⟨j, g, hg, he'⟩ hkey
    · rw [(hadd.passedOver _ hg (Nat.zero_lt_of_lt hij)).1, List.mem_singleton, Prod.mk.injEq] at hf
      exact absurd hf.1 hij.ne

end Add

end Version

end Leveldb

end UnifyFramework
