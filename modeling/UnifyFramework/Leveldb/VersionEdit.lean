import Mathlib.Data.List.TakeWhile
import UnifyFramework.Leveldb.VersionOrder

/-!
# Edits of a version

A new version is the old one with some files deleted and others added. The builder merges the
added files into each level by their smallest keys. The new version is in order when its levels
still are newer than the deeper ones and no two files of a level below the first overlap.
-/

namespace UnifyFramework

namespace Leveldb

open Versioned

structure VersionEdit where
  deletedFiles : List (ℕ × ℕ)
  newFiles : List (ℕ × FileMetaData)

def bySmallestKey (f g : FileMetaData) : Bool :=
  match internalKeyCompare f.smallest g.smallest with
  | .lt => true
  | .gt => false
  | .eq => f.number < g.number

/-- The insertion into a `FileSet`. -/
def insertFile (f : FileMetaData) : List FileMetaData → List FileMetaData
  | [] => [f]
  | g :: files =>
      if bySmallestKey f g then f :: g :: files
      else if bySmallestKey g f then g :: insertFile f files
      else g :: files

namespace VersionEdit

def newFilesAt (edit : VersionEdit) (level : ℕ) : List FileMetaData :=
  (edit.newFiles.filter (·.1 = level)).map Prod.snd

def addedFiles (edit : VersionEdit) (level : ℕ) : List FileMetaData :=
  (edit.newFilesAt level).foldl (fun files f => insertFile f files) []

/-- `levels_[level].deleted_files` has the number: a file that is put in again is not deleted. -/
def isDeleted (edit : VersionEdit) (level number : ℕ) : Bool :=
  (level, number) ∈ edit.deletedFiles ∧ ∀ f ∈ edit.newFilesAt level, f.number ≠ number

end VersionEdit

/-- The merge of `SaveTo`: in front of an added file stand the files that are not behind it. -/
def mergeFiles : List FileMetaData → List FileMetaData → List FileMetaData
  | base, [] => base
  | base, f :: added =>
      base.takeWhile (fun g => !bySmallestKey f g) ++
        f :: mergeFiles (base.dropWhile fun g => !bySmallestKey f g) added

/-- `VersionSet::Builder::Apply` and `SaveTo`. -/
def Version.apply (v : Version) (edit : VersionEdit) : Version where
  files level := (mergeFiles (v.files level) (edit.addedFiles level)).filter fun f =>
    !edit.isDeleted level f.number

def SmallestLe (f g : FileMetaData) : Prop := rank f.smallestUserKey ≤ rank g.smallestUserKey

def EndsBefore (f g : FileMetaData) : Prop := rank f.largestUserKey < rank g.smallestUserKey

variable {f g : FileMetaData} {files base added : List FileMetaData}

theorem smallestLe_of_bySmallestKey (h : bySmallestKey f g = true) : SmallestLe f g := by
  rw [bySmallestKey, internalKeyCompare] at h
  rw [SmallestLe, FileMetaData.smallestUserKey, FileMetaData.smallestUserKey]
  cases hcmp : bytewiseCompare (extractUserKey f.smallest) (extractUserKey g.smallest) with
  | lt => exact ((bytewiseCompare_eq_lt_iff _ _).mp hcmp).le
  | gt => simp [hcmp] at h
  | eq => rw [Std.LawfulEqCmp.eq_of_compare hcmp]

theorem smallestLe_of_not_bySmallestKey (h : bySmallestKey f g = false) : SmallestLe g f := by
  rw [bySmallestKey, internalKeyCompare] at h
  rw [SmallestLe, FileMetaData.smallestUserKey, FileMetaData.smallestUserKey]
  cases hcmp : bytewiseCompare (extractUserKey f.smallest) (extractUserKey g.smallest) with
  | lt => simp [hcmp] at h
  | gt => exact ((bytewiseCompare_eq_gt_iff _ _).mp hcmp).le
  | eq => rw [Std.LawfulEqCmp.eq_of_compare hcmp]

theorem internalKeyCompare_swap (a b : Slice) :
    internalKeyCompare b a = (internalKeyCompare a b).swap := by
  have hswap : bytewiseCompare (extractUserKey b) (extractUserKey a) =
      (bytewiseCompare (extractUserKey a) (extractUserKey b)).swap := Std.OrientedCmp.eq_swap
  rw [internalKeyCompare, internalKeyCompare, hswap]
  cases bytewiseCompare (extractUserKey a) (extractUserKey b) with
  | lt => rfl
  | gt => rfl
  | eq =>
      rcases lt_trichotomy (extractTag a) (extractTag b) with hlt | heq | hgt
      · simp [hlt, hlt.not_gt]
      · simp [heq]
      · simp [hgt, hgt.not_gt]

theorem bySmallestKey_total (h : f.number ≠ g.number) (hfg : bySmallestKey f g = false) :
    bySmallestKey g f = true := by
  rw [bySmallestKey] at hfg ⊢
  rw [internalKeyCompare_swap f.smallest]
  cases hcmp : internalKeyCompare f.smallest g.smallest with
  | lt => simp [hcmp] at hfg
  | gt => rfl
  | eq =>
      simp only [hcmp, decide_eq_false_iff_not, not_lt] at hfg
      exact decide_eq_true (hfg.lt_of_ne h.symm)

theorem insertFile_perm (h : ∀ g ∈ files, f.number ≠ g.number) :
    (insertFile f files).Perm (f :: files) := by
  induction files with
  | nil => exact .refl _
  | cons g files ih =>
      have hrest := ih fun g' hg' => h g' (List.mem_cons_of_mem g hg')
      rw [insertFile]
      cases hfg : bySmallestKey f g with
      | true => exact .refl _
      | false =>
          rw [if_neg Bool.false_ne_true, bySmallestKey_total (h g List.mem_cons_self) hfg, if_pos rfl]
          exact (hrest.cons g).trans (.swap f g files)

theorem mem_of_mem_insertFile (h : g ∈ insertFile f files) : g = f ∨ g ∈ files := by
  induction files with
  | nil => exact .inl (List.mem_singleton.mp h)
  | cons a files ih =>
      rw [insertFile] at h
      split at h
      · exact List.mem_cons.mp h
      · split at h
        · rcases List.mem_cons.mp h with rfl | h
          · exact .inr List.mem_cons_self
          · exact (ih h).imp_right (List.mem_cons_of_mem a)
        · exact .inr h

theorem insertFile_sorted (hfiles : files.Pairwise SmallestLe) :
    (insertFile f files).Pairwise SmallestLe := by
  induction files with
  | nil => exact List.pairwise_singleton _ _
  | cons a files ih =>
      rw [insertFile]
      split
      · rename_i hfa
        have hle := smallestLe_of_bySmallestKey hfa
        refine hfiles.cons fun b hb => ?_
        rcases List.mem_cons.mp hb with rfl | hb
        · exact hle
        · exact hle.trans (List.rel_of_pairwise_cons hfiles hb)
      · split
        · rename_i hfa _
          refine (ih hfiles.of_cons).cons fun b hb => ?_
          rcases mem_of_mem_insertFile hb with rfl | hb
          · exact smallestLe_of_not_bySmallestKey (Bool.eq_false_iff.mpr hfa)
          · exact List.rel_of_pairwise_cons hfiles hb
        · exact hfiles

theorem mergeFiles_perm (base added : List FileMetaData) :
    (mergeFiles base added).Perm (base ++ added) := by
  induction added generalizing base with
  | nil => rw [mergeFiles, List.append_nil]
  | cons f added ih =>
      rw [mergeFiles]
      refine (List.perm_middle.trans (((ih _).append_left _).cons f)).trans ?_
      rw [← List.append_assoc, List.takeWhile_append_dropWhile]
      exact List.perm_middle.symm

/-- What is behind the first file that an added one stands before. -/
theorem smallestLe_of_mem_dropWhile (hbase : base.Pairwise SmallestLe)
    (hg : g ∈ base.dropWhile fun b => !bySmallestKey f b) : SmallestLe f g := by
  induction base with
  | nil => exact absurd hg List.not_mem_nil
  | cons a base ih =>
      rw [List.dropWhile_cons] at hg
      split at hg
      · exact ih hbase.of_cons hg
      · rename_i hfa
        rw [Bool.not_eq_true', Bool.not_eq_false] at hfa
        have hle := smallestLe_of_bySmallestKey hfa
        rcases List.mem_cons.mp hg with rfl | hg
        · exact hle
        · exact hle.trans (List.rel_of_pairwise_cons hbase hg)

theorem mergeFiles_sorted (hbase : base.Pairwise SmallestLe) (hadded : added.Pairwise SmallestLe) :
    (mergeFiles base added).Pairwise SmallestLe := by
  induction added generalizing base with
  | nil => exact hbase
  | cons f added ih =>
      have hparts : (base.takeWhile (fun g => !bySmallestKey f g) ++
          base.dropWhile fun g => !bySmallestKey f g).Pairwise SmallestLe := by
        rwa [List.takeWhile_append_dropWhile]
      obtain ⟨htake, hdrop, hcross⟩ := List.pairwise_append.mp hparts
      have hle : ∀ g ∈ mergeFiles (base.dropWhile fun g => !bySmallestKey f g) added,
          g ∈ base.dropWhile (fun g => !bySmallestKey f g) ∨ g ∈ added := fun g hg =>
        List.mem_append.mp ((mergeFiles_perm _ _).mem_iff.mp hg)
      have hfirst : ∀ a ∈ base.takeWhile fun g => !bySmallestKey f g, SmallestLe a f := by
        intro a ha
        have hnot := List.mem_takeWhile_imp ha
        exact smallestLe_of_not_bySmallestKey (by simpa using hnot)
      rw [mergeFiles]
      refine List.pairwise_append.mpr ⟨htake, (ih hdrop hadded.of_cons).cons fun g hg => ?_, ?_⟩
      · rcases hle g hg with hg | hg
        · exact smallestLe_of_mem_dropWhile hbase hg
        · exact List.rel_of_pairwise_cons hadded hg
      · intro a ha g hg
        rcases List.mem_cons.mp hg with rfl | hg
        · exact hfirst a ha
        · rcases hle g hg with hg | hg
          · exact hcross a ha g hg
          · exact (hfirst a ha).trans (List.rel_of_pairwise_cons hadded hg)

namespace VersionEdit

variable {edit : VersionEdit} {level : ℕ}

theorem mem_newFilesAt : f ∈ edit.newFilesAt level ↔ (level, f) ∈ edit.newFiles := by
  simp [newFilesAt]

theorem foldl_insertFile_sorted (news files : List FileMetaData)
    (hfiles : files.Pairwise SmallestLe) :
    (news.foldl (fun files f => insertFile f files) files).Pairwise SmallestLe := by
  induction news generalizing files with
  | nil => exact hfiles
  | cons f news ih => exact ih _ (insertFile_sorted hfiles)

theorem foldl_insertFile_perm (news files : List FileMetaData)
    (hnumbers : (files ++ news).Pairwise fun f g => f.number ≠ g.number) :
    (news.foldl (fun files f => insertFile f files) files).Perm (files ++ news) := by
  induction news generalizing files with
  | nil => rw [List.append_nil, List.foldl_nil]
  | cons f news ih =>
      obtain ⟨-, -, hcross⟩ := List.pairwise_append.mp hnumbers
      have hperm : (insertFile f files).Perm (f :: files) :=
        insertFile_perm fun g hg => (hcross g hg f List.mem_cons_self).symm
      have hmiddle : (insertFile f files ++ news).Perm (files ++ f :: news) :=
        (hperm.append_right news).trans List.perm_middle.symm
      rw [List.foldl_cons]
      refine (ih _ ?_).trans hmiddle
      exact (hmiddle.pairwise_iff fun h => Ne.symm h).mpr hnumbers

def NumbersDiffer (edit : VersionEdit) : Prop :=
  (edit.newFiles.map Prod.snd).Pairwise fun f g => f.number ≠ g.number

theorem NumbersDiffer.newFilesAt (h : edit.NumbersDiffer) (level : ℕ) :
    (edit.newFilesAt level).Pairwise fun f g => f.number ≠ g.number :=
  h.sublist (List.filter_sublist.map Prod.snd)

theorem NumbersDiffer.addedFiles_perm (h : edit.NumbersDiffer) (level : ℕ) :
    (edit.addedFiles level).Perm (edit.newFilesAt level) :=
  foldl_insertFile_perm _ [] (h.newFilesAt level)

end VersionEdit

namespace Version

variable {v : Version} {edit : VersionEdit} {level : ℕ}

theorem mem_apply (h : edit.NumbersDiffer) :
    f ∈ (v.apply edit).files level ↔
      (f ∈ v.files level ∨ (level, f) ∈ edit.newFiles) ∧ edit.isDeleted level f.number = false := by
  rw [apply, List.mem_filter, (mergeFiles_perm _ _).mem_iff, List.mem_append,
    (h.addedFiles_perm level).mem_iff, VersionEdit.mem_newFilesAt, Bool.not_eq_true']

theorem nodup_apply (h : edit.NumbersDiffer) (hnodup : (v.files level).Nodup)
    (hnew : ∀ f, (level, f) ∈ edit.newFiles → f ∉ v.files level) :
    ((v.apply edit).files level).Nodup := by
  refine List.Pairwise.filter _ ((mergeFiles_perm _ _).nodup_iff.mpr ?_)
  have hadded : (edit.addedFiles level).Nodup := by
    refine (h.addedFiles_perm level).nodup_iff.mpr ((h.newFilesAt level).imp ?_)
    rintro f _ hne rfl
    exact hne rfl
  refine List.nodup_append.mpr ⟨hnodup, hadded, ?_⟩
  rintro f hf _ hg rfl
  rw [(h.addedFiles_perm level).mem_iff, VersionEdit.mem_newFilesAt] at hg
  exact hnew f hg hf

theorem Ordered.nodup_files (h : v.Ordered) (level : ℕ) : (v.files level).Nodup := by
  rcases Nat.eq_zero_or_pos level with rfl | hpos
  · exact h.nodup
  · refine (h.disjoint level hpos).imp_of_mem ?_
    rintro f _ hf - hlt rfl
    exact absurd (h.rank_smallest_le hf) hlt.not_ge

theorem Ordered.sorted (h : v.Ordered) (hlevel : 0 < level) :
    (v.files level).Pairwise SmallestLe :=
  (h.disjoint level hlevel).imp_of_mem fun hf _ hlt => (h.rank_smallest_le hf).trans hlt.le

theorem Ordered.apply (h : v.Ordered) (hdiffer : edit.NumbersDiffer)
    (hnew : ∀ level f, (level, f) ∈ edit.newFiles →
      level < kNumLevels ∧ f ∉ v.files level ∧ ∃ es, f.Represents es)
    (hnumber : ∀ i, ∀ f ∈ (v.apply edit).files i, ∀ j, ∀ g ∈ (v.apply edit).files j,
      f.number = g.number → i = j ∧ f = g)
    (hnewest : ∀ f ∈ (v.apply edit).files 0, ∀ g ∈ (v.apply edit).files 0,
      g.number < f.number → Newer f.entries g.entries)
    (hapart : ∀ level, 0 < level → ∀ f ∈ (v.apply edit).files level,
      ∀ g ∈ (v.apply edit).files level, f ≠ g → EndsBefore f g ∨ EndsBefore g f)
    (hdeeper : ∀ i j, i < j → Newer ((v.apply edit).entries i) ((v.apply edit).entries j)) :
    (v.apply edit).Ordered := by
  have hrep : ∀ level, ∀ f ∈ (v.apply edit).files level, ∃ es, f.Represents es := by
    intro level f hf
    rcases ((mem_apply hdiffer).mp hf).1 with hf | hf
    · exact h.represents level f hf
    · exact (hnew level f hf).2.2
  have hnodup : ∀ level, ((v.apply edit).files level).Nodup := fun level =>
    nodup_apply hdiffer (h.nodup_files level) fun f hf => (hnew level f hf).2.1
  refine ⟨hrep, hnodup 0, hnumber, hnewest, fun level hlevel => ?_, hdeeper, fun level hlevel => ?_⟩
  · have hsorted : ((v.apply edit).files level).Pairwise SmallestLe :=
      (mergeFiles_sorted (h.sorted hlevel)
        (VersionEdit.foldl_insertFile_sorted _ [] .nil)).sublist List.filter_sublist
    refine ((hnodup level).and hsorted).imp_of_mem fun {f g} hf hg ⟨hne, hle⟩ => ?_
    refine (hapart level hlevel f hf g hg hne).resolve_right fun hlt => ?_
    obtain ⟨es, hes⟩ := hrep level g hg
    obtain ⟨e, he, -⟩ := hes.exists_smallest
    exact absurd ((hes.rank_mem he).1.trans (hes.rank_mem he).2) (hlt.trans_le hle).not_ge
  · rw [List.eq_nil_iff_forall_not_mem]
    intro f hf
    rcases ((mem_apply hdiffer).mp hf).1 with hf | hf
    · rw [h.files_eq_nil level hlevel] at hf
      exact List.not_mem_nil hf
    · exact absurd (hnew level f hf).1 (Nat.not_lt.mpr hlevel)

end Version

end Leveldb

end UnifyFramework
