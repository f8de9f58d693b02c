import UnifyFramework.Leveldb.CompactionInputs
import UnifyFramework.Leveldb.CompactionWork
import UnifyFramework.Versioned.Reads

/-!
# Compactions keep what readers see

A compaction that was picked stays sound while tables from memory are added to the version. When
its results are installed, the new version is in order, and who reads at the sequence number of
the compaction or above sees what they saw before.
-/

namespace UnifyFramework

namespace Leveldb

open Search Versioned FileMetaData

namespace Compaction

def inputEntries (c : Compaction) : Set Entry :=
  {e | ∃ f ∈ c.inputs0 ++ c.inputs1, e ∈ f.entries}

structure Sound (c : Compaction) (v : Version) : Prop where
  level_lt : c.level + 1 < kNumLevels
  ordered : c.inputVersion.Ordered
  subset0 : ∀ f ∈ c.inputs0, f ∈ v.files c.level
  subset1 : ∀ f ∈ c.inputs1, f ∈ v.files (c.level + 1)
  nodup0 : c.inputs0.Nodup
  sorted0 : 0 < c.level → c.inputs0.Pairwise EndsBefore
  sorted1 : c.inputs1.Pairwise EndsBefore
  connected : Connected lo hi {f | f ∈ c.inputs0 ++ c.inputs1}
  newer0 : ∀ g ∈ v.files c.level, g ∉ c.inputs0 → ∀ f ∈ c.inputs0, Newer g.entries f.entries
  apart1 : ∀ g ∈ v.files (c.level + 1), g ∉ c.inputs1 →
    ∀ f ∈ c.inputs0 ++ c.inputs1, Apart f g
  base : ∀ level, c.level + 2 ≤ level → ∀ g ∈ v.files level,
    g ∈ c.inputVersion.files level ∨ ∀ f ∈ c.inputs0 ++ c.inputs1, Apart f g
  seq_le : ∀ e ∈ c.inputEntries, e.seq ≤ c.smallestSnapshot
  snapshot_lt : c.smallestSnapshot < kMaxSequenceNumber

variable {c : Compaction} {v : Version} {f g : FileMetaData} {e e' : Entry}
  {outs : List FileMetaData}

theorem key_ne_of_apart {i j : ℕ} (h : v.Ordered) (hf : f ∈ v.files i) (hg : g ∈ v.files j)
    (hapart : Apart f g) (he : e ∈ f.entries) (he' : e' ∈ g.entries) : e.key ≠ e'.key := by
  obtain ⟨es, hes⟩ := h.represents i f hf
  obtain ⟨fs, hfs⟩ := h.represents j g hg
  exact fun hkey => Version.key_ne_of_outOfRange hapart hfs hes he' he hkey.symm

/-- The compaction that `PickCompaction` returns. -/
theorem sound_of_picked (h : v.Ordered) (hpicked : v.Picked c.level c.inputs0 c.inputs1)
    (hversion : c.inputVersion = v) (hlevel : c.level + 1 < kNumLevels)
    (hseq : ∀ e ∈ v.allEntries, e.seq ≤ c.smallestSnapshot)
    (hmax : c.smallestSnapshot < kMaxSequenceNumber) : c.Sound v where
  level_lt := hlevel
  ordered := hversion ▸ h
  subset0 _ hf := hpicked.sublist0.subset hf
  subset1 _ hf := hpicked.sublist1.subset hf
  nodup0 := (h.nodup_files c.level).sublist hpicked.sublist0
  sorted0 hpos := (h.disjoint c.level hpos).sublist hpicked.sublist0
  sorted1 := (h.disjoint (c.level + 1) (Nat.succ_pos _)).sublist hpicked.sublist1
  connected := hpicked.connected
  newer0 g hg hnot f hf e he e' he' hkey :=
    absurd hkey.symm (key_ne_of_apart h (hpicked.sublist0.subset hf) hg
      (hpicked.apart0 g hg hnot f hf) he' he)
  apart1 g hg hnot f hf := by
    rcases List.mem_append.mp hf with hf | hf
    · exact hpicked.apart1 g hg hnot f hf
    · have hne : g ≠ f := fun heq => hnot (heq ▸ hf)
      exact h.apart (Nat.succ_pos _) hg (hpicked.sublist1.subset hf) hne
  base level _ g hg := .inl (hversion ▸ hg)
  seq_le e := by
    rintro ⟨f, hf, he⟩
    rcases List.mem_append.mp hf with hf | hf
    · exact hseq e ⟨c.level, f, hpicked.sublist0.subset hf, he⟩
    · exact hseq e ⟨c.level + 1, f, hpicked.sublist1.subset hf, he⟩
  snapshot_lt := hmax

theorem Sound.mem_files (h : c.Sound v) (hf : f ∈ c.inputs0 ++ c.inputs1) :
    ∃ i, (i = c.level ∨ i = c.level + 1) ∧ f ∈ v.files i := by
  rcases List.mem_append.mp hf with hf | hf
  · exact ⟨_, .inl rfl, h.subset0 f hf⟩
  · exact ⟨_, .inr rfl, h.subset1 f hf⟩

theorem Sound.inputEntries_subset (h : c.Sound v) : c.inputEntries ⊆ v.allEntries := by
  rintro e ⟨f, hf, he⟩
  obtain ⟨i, -, hfi⟩ := h.mem_files hf
  exact ⟨i, f, hfi, he⟩

/-- Tables from memory may be added while the compaction runs: those that go to the level of the
outputs or below it are apart from the inputs. -/
theorem Sound.add (h : c.Sound v) {news : List (ℕ × FileMetaData)} (hadd : v.Addable news) :
    c.Sound (v.apply ⟨[], news⟩) := by
  have hmem : ∀ {level f}, f ∈ (v.apply ⟨[], news⟩).files level ↔
      f ∈ v.files level ∨ (level, f) ∈ news := Version.mem_apply_add hadd.numbersDiffer
  have hpassed : ∀ level, c.level + 1 ≤ level → ∀ g, (level, g) ∈ news →
      ∀ f ∈ c.inputs0 ++ c.inputs1, Apart f g := by
    intro level hlevel g hg f hf
    obtain ⟨i, hi, hfi⟩ := h.mem_files hf
    have hpos : 0 < level := by omega
    refine Apart.symm ((hadd.passedOver (level, g) hg hpos).2 i ?_ f hfi)
    dsimp only
    omega
  refine { h with
    subset0 := fun f hf => hmem.mpr (.inl (h.subset0 f hf))
    subset1 := fun f hf => hmem.mpr (.inl (h.subset1 f hf))
    newer0 := ?_
    apart1 := ?_
    base := ?_ }
  · intro g hg hnot f hf
    rcases hmem.mp hg with hg | hg
    · exact h.newer0 g hg hnot f hf
    · exact fun e he e' he' => hadd.newer _ hg e he e' ⟨c.level, f, h.subset0 f hf, he'⟩
  · intro g hg hnot
    rcases hmem.mp hg with hg | hg
    · exact h.apart1 g hg hnot
    · exact hpassed _ le_rfl g hg
  · intro level hlevel g hg
    rcases hmem.mp hg with hg | hg
    · exact h.base level hlevel g hg
    · exact .inr (hpassed level (by omega) g hg)

structure Replaces (c : Compaction) (v : Version) (outs : List FileMetaData) : Prop where
  represents : ∀ f ∈ outs, ∃ es, f.Represents es
  subset : ∀ f ∈ outs, ∀ e ∈ f.entries, e ∈ c.inputEntries
  disjoint : outs.Pairwise EndsBefore
  differ : outs.Pairwise fun f g => f.number ≠ g.number
  number : ∀ f ∈ outs, ∀ i, ∀ g ∈ v.files i, g.number = f.number → i = c.level ∧ g ∈ c.inputs0 ∧ g = f

def editOf (c : Compaction) (outs : List FileMetaData) : VersionEdit :=
  ⟨c.inputDeletions, outs.map fun f => (c.level + 1, f)⟩

section Install

variable {level n : ℕ}

theorem mem_inputDeletions :
    (level, n) ∈ c.inputDeletions ↔
      level = c.level ∧ (∃ f ∈ c.inputs0, f.number = n) ∨
        level = c.level + 1 ∧ ∃ f ∈ c.inputs1, f.number = n := by
  simp only [inputDeletions, List.mem_append, List.mem_map, Prod.mk.injEq]
  constructor
  · rintro (⟨f, hf, rfl, rfl⟩ | ⟨f, hf, rfl, rfl⟩)
    · exact .inl ⟨rfl, f, hf, rfl⟩
    · exact .inr ⟨rfl, f, hf, rfl⟩
  · rintro (⟨rfl, f, hf, rfl⟩ | ⟨rfl, f, hf, rfl⟩)
    · exact .inl ⟨f, hf, rfl, rfl⟩
    · exact .inr ⟨f, hf, rfl, rfl⟩

theorem mem_newFiles_editOf :
    (level, f) ∈ (c.editOf outs).newFiles ↔ level = c.level + 1 ∧ f ∈ outs := by
  simp only [editOf, List.mem_map, Prod.mk.injEq]
  constructor
  · rintro ⟨g, hg, rfl, rfl⟩
    exact ⟨rfl, hg⟩
  · rintro ⟨rfl, hf⟩
    exact ⟨f, hf, rfl, rfl⟩

theorem isDeleted_editOf :
    (c.editOf outs).isDeleted level n = true ↔
      (level, n) ∈ c.inputDeletions ∧ (level = c.level + 1 → ∀ f ∈ outs, f.number ≠ n) := by
  rw [VersionEdit.isDeleted, decide_eq_true_eq]
  refine and_congr_right fun _ => ?_
  constructor
  · intro h hlevel f hf
    exact h f (VersionEdit.mem_newFilesAt.mpr (mem_newFiles_editOf.mpr ⟨hlevel, hf⟩))
  · intro h f hf
    obtain ⟨hlevel, hf⟩ := mem_newFiles_editOf.mp (VersionEdit.mem_newFilesAt.mp hf)
    exact h hlevel f hf

theorem Replaces.numbersDiffer (hrep : c.Replaces v outs) : (c.editOf outs).NumbersDiffer := by
  have hmap : (c.editOf outs).newFiles.map Prod.snd = outs := by
    rw [editOf, List.map_map]
    exact List.map_id outs
  rw [VersionEdit.NumbersDiffer, hmap]
  exact hrep.differ

theorem mem_apply_editOf (hv : v.Ordered) (h : c.Sound v) (hrep : c.Replaces v outs) :
    f ∈ (v.apply (c.editOf outs)).files level ↔
      f ∈ v.files level ∧ (level = c.level → f ∉ c.inputs0) ∧ (level = c.level + 1 → f ∉ c.inputs1) ∨
        level = c.level + 1 ∧ f ∈ outs := by
  rw [Version.mem_apply hrep.numbersDiffer, ← Bool.not_eq_true, isDeleted_editOf,
    mem_newFiles_editOf, mem_inputDeletions]
  constructor
  · rintro ⟨hf | hf, hkeep⟩
    · by_cases hout : level = c.level + 1 ∧ f ∈ outs
      · exact .inr hout
      refine .inl ⟨hf, ?_, ?_⟩
      · rintro rfl hinput
        exact hkeep ⟨.inl ⟨rfl, f, hinput, rfl⟩, fun hlevel => absurd hlevel (by omega)⟩
      · rintro rfl hinput
        refine hkeep ⟨.inr ⟨rfl, f, hinput, rfl⟩, fun _ g hg heq => ?_⟩
        have := (hrep.number g hg _ f hf heq.symm).1
        omega
    · exact .inr hf
  · rintro (⟨hf, hnot0, hnot1⟩ | ⟨rfl, hf⟩)
    · refine ⟨.inl hf, ?_⟩
      rintro ⟨⟨rfl, g, hg, heq⟩ | ⟨rfl, g, hg, heq⟩, -⟩
      · exact hnot0 rfl ((hv.number_inj _ g (h.subset0 g hg) _ f hf heq).2 ▸ hg)
      · exact hnot1 rfl ((hv.number_inj _ g (h.subset1 g hg) _ f hf heq).2 ▸ hg)
    · exact ⟨.inr ⟨rfl, hf⟩, fun hdeleted => hdeleted.2 rfl f hf rfl⟩

/-- A file of the level of the outputs that was no input is apart from the outputs. -/
theorem Sound.apart_out (h : c.Sound v) (hv : v.Ordered) (hrep : c.Replaces v outs)
    (hg : g ∈ v.files (c.level + 1)) (hnot : g ∉ c.inputs1) (hf : f ∈ outs) : Apart f g := by
  by_contra hmeets
  obtain ⟨hle, hge⟩ := not_apart_iff.mp hmeets
  obtain ⟨es, hes⟩ := hrep.represents f hf
  obtain ⟨a, ha, hsmallest, -⟩ := hes.exists_smallest
  obtain ⟨b, hb, hlargest, -⟩ := hes.exists_largest
  have hlo : f.lo = rank a.key := by
    rw [lo, smallestUserKey, hsmallest, extractUserKey_entryKey]
  have hhi : f.hi = rank b.key := by
    rw [hi, largestUserKey, hlargest, extractUserKey_entryKey]
  -- The ends of the output are keys of inputs.
  obtain ⟨x, hx, hax⟩ := hrep.subset f hf a (hes.entries_eq ▸ ha)
  obtain ⟨y, hy, hby⟩ := hrep.subset f hf b (hes.entries_eq ▸ hb)
  obtain ⟨i, -, hxi⟩ := h.mem_files hx
  obtain ⟨j, -, hyj⟩ := h.mem_files hy
  obtain ⟨z, hz, hzmeets⟩ := h.connected g.lo g.hi (hv.rank_smallest_le hg)
    ⟨x, hx, ((hv.rank_mem hxi hax).1.trans hlo.ge).trans hle⟩
    ⟨y, hy, (hge.trans hhi.le).trans (hv.rank_mem hyj hby).2⟩
  exact not_apart_iff.mpr hzmeets (h.apart1 g hg hnot z hz).symm

/-- What holds for the entries of the old files on their levels holds for those of the new ones:
outputs hold entries of inputs. -/
theorem mem_entries_apply_editOf (hv : v.Ordered) (h : c.Sound v) (hrep : c.Replaces v outs)
    (he : e ∈ (v.apply (c.editOf outs)).entries level) :
    (∃ f ∈ v.files level, (level = c.level → f ∉ c.inputs0) ∧ (level = c.level + 1 → f ∉ c.inputs1) ∧
      e ∈ f.entries) ∨ level = c.level + 1 ∧ e ∈ c.inputEntries := by
  obtain ⟨f, hf, he⟩ := he
  rcases (mem_apply_editOf hv h hrep).mp hf with ⟨hf, hnot0, hnot1⟩ | ⟨rfl, hout⟩
  · exact .inl ⟨f, hf, hnot0, hnot1, he⟩
  · exact .inr ⟨rfl, hrep.subset f hout e he⟩

/-- What is above the level of the outputs and is no input is newer than the inputs. -/
theorem Sound.newer_inputs (h : c.Sound v) (hv : v.Ordered) (hlevel : level ≤ c.level)
    (hf : f ∈ v.files level) (hnot : level = c.level → f ∉ c.inputs0) :
    Newer f.entries c.inputEntries := by
  rintro e he e' ⟨g, hg, he'⟩ hkey
  rcases List.mem_append.mp hg with hg | hg
  · rcases hlevel.eq_or_lt with rfl | hlt
    · exact h.newer0 f hf (hnot rfl) g hg e he e' he' hkey
    · exact hv.deeper _ _ hlt e ⟨f, hf, he⟩ e' ⟨g, h.subset0 g hg, he'⟩ hkey
  · exact hv.deeper _ _ (Nat.lt_succ_of_le hlevel) e ⟨f, hf, he⟩ e' ⟨g, h.subset1 g hg, he'⟩ hkey

theorem Sound.ordered_editOf (h : c.Sound v) (hv : v.Ordered) (hrep : c.Replaces v outs) :
    (v.apply (c.editOf outs)).Ordered := by
  have hmem : ∀ {level f}, f ∈ (v.apply (c.editOf outs)).files level ↔ _ := mem_apply_editOf hv h hrep
  refine hv.apply hrep.numbersDiffer ?_ ?_ ?_ ?_ ?_
  · intro level f hf
    obtain ⟨rfl, hout⟩ := mem_newFiles_editOf.mp hf
    refine ⟨h.level_lt, fun hold => ?_, hrep.represents f hout⟩
    have := (hrep.number f hout _ f hold rfl).1
    omega
  · intro i f hf j g hg heq
    rcases hmem.mp hf with ⟨hf, hfnot, -⟩ | ⟨rfl, hfout⟩ <;>
      rcases hmem.mp hg with ⟨hg, hgnot, -⟩ | ⟨rfl, hgout⟩
    · exact hv.number_inj i f hf j g hg heq
    · obtain ⟨hi, hinput, -⟩ := hrep.number g hgout i f hf heq
      exact absurd hinput (hfnot hi)
    · obtain ⟨hj, hinput, -⟩ := hrep.number f hfout j g hg heq.symm
      exact absurd hinput (hgnot hj)
    · refine ⟨rfl, ?_⟩
      exact List.Pairwise.forall_of_forall_of_flip (R := fun f g => f.number = g.number → f = g)
        (fun _ _ _ => rfl) (hrep.differ.imp fun hne heq => absurd heq hne)
        (hrep.differ.imp fun hne heq => absurd heq hne.symm) hfout hgout heq
  · intro f hf g hg hlt
    have hold : ∀ {x}, x ∈ (v.apply (c.editOf outs)).files 0 → x ∈ v.files 0 := fun hx =>
      (hmem.mp hx).elim And.left fun hx => absurd hx.1 (by omega)
    exact hv.newest f (hold hf) g (hold hg) hlt
  · intro level hlevel f hf g hg hne
    rcases hmem.mp hf with ⟨hf, -, hfnot⟩ | ⟨rfl, hfout⟩ <;>
      rcases hmem.mp hg with ⟨hg, -, hgnot⟩ | ⟨hlevel', hgout⟩
    · exact hv.apart hlevel hf hg hne
    · subst hlevel'
      exact h.apart_out hv hrep hf (hfnot rfl) hgout
    · exact (h.apart_out hv hrep hg (hgnot rfl) hfout).symm
    · exact List.Pairwise.forall_of_forall_of_flip
        (R := fun f g => f ≠ g → EndsBefore f g ∨ EndsBefore g f) (fun _ _ hne => absurd rfl hne)
        (hrep.disjoint.imp fun hlt _ => .inl hlt) (hrep.disjoint.imp fun hlt _ => .inr hlt) hfout hgout
        hne
  · intro i j hij e he e' he'
    rcases mem_entries_apply_editOf hv h hrep he with ⟨f, hf, hfnot, -, hef⟩ | ⟨rfl, hinput⟩ <;>
      rcases mem_entries_apply_editOf hv h hrep he' with ⟨g, hg, -, -, heg⟩ | ⟨hj, hinput'⟩
    · exact hv.deeper i j hij e ⟨f, hf, hef⟩ e' ⟨g, hg, heg⟩
    · exact h.newer_inputs hv (by omega) hf hfnot e hef e' hinput'
    · obtain ⟨x, hx, hex⟩ := hinput
      obtain ⟨k, hk, hxk⟩ := h.mem_files hx
      exact hv.deeper k j (by omega) e ⟨x, hxk, hex⟩ e' ⟨g, hg, heg⟩
    · omega

/-- The entries of the inputs that were dropped are hidden. -/
theorem Sound.compacts_editOf (h : c.Sound v) (hv : v.Ordered) (hrep : c.Replaces v outs)
    (hdropped : ∀ e ∈ c.inputEntries,
      (∃ f ∈ outs, ∃ m ∈ f.entries, m.key = e.key ∧ (m = e ∨ e.seq < m.seq)) ∨
      ∃ d ∈ c.inputEntries, d.key = e.key ∧ e.seq ≤ d.seq ∧ d.value = none ∧
        (∀ f ∈ outs, ∀ m ∈ f.entries, m.key ≠ e.key) ∧
        ∀ level ∈ c.deeperLevels, Absent c.inputVersion e.key level) :
    Compacts c.smallestSnapshot v.allEntries (v.apply (c.editOf outs)).allEntries := by
  have hout : ∀ f ∈ outs, ∀ m ∈ f.entries, m ∈ (v.apply (c.editOf outs)).allEntries :=
    fun f hf m hm => ⟨c.level + 1, f, (mem_apply_editOf hv h hrep).mpr (.inr ⟨rfl, hf⟩), hm⟩
  constructor
  · rintro e ⟨level, he⟩
    rcases mem_entries_apply_editOf hv h hrep he with ⟨f, hf, -, -, he⟩ | ⟨-, hinput⟩
    · exact ⟨level, f, hf, he⟩
    · exact h.inputEntries_subset hinput
  · rintro e ⟨level, f, hf, he⟩ hgone
    have hinput : e ∈ c.inputEntries := by
      by_contra hnot
      refine hgone ⟨level, f, (mem_apply_editOf hv h hrep).mpr (.inl ⟨hf, ?_, ?_⟩), he⟩
      · exact fun _ hf => hnot ⟨f, List.mem_append_left _ hf, he⟩
      · exact fun _ hf => hnot ⟨f, List.mem_append_right _ hf, he⟩
    rcases hdropped e hinput with ⟨o, ho, m, hm, hkey, hme⟩ | ⟨d, hd, hkey, hle, hnone, houts, habsent⟩
    · left
      rcases hme with rfl | hlt
      · exact absurd (hout o ho m hm) hgone
      · exact ⟨m, hout o ho m hm, hkey, hlt, h.seq_le m (hrep.subset o ho m hm)⟩
    · right
      refine ⟨d, h.inputEntries_subset hd, hkey, hle, h.seq_le d hd, hnone, ?_⟩
      rintro m ⟨i, g, hg, hm⟩ hmkey
      obtain ⟨x, hx, hdx⟩ := hd
      obtain ⟨k, -, hxk⟩ := h.mem_files hx
      rcases (mem_apply_editOf hv h hrep).mp hg with ⟨hg, hnot0, hnot1⟩ | ⟨-, hg⟩
      · rcases Nat.lt_or_ge c.level i with hi | hi
        · -- At the level of the outputs and below it nothing is left of the key.
          have hmeets : ¬Apart x g := fun hapart =>
            key_ne_of_apart hv hxk hg hapart hdx hm (hkey.trans hmkey.symm)
          rcases Nat.eq_or_lt_of_le hi with rfl | hi
          · exact absurd (h.apart1 g hg (hnot1 rfl) x hx) hmeets
          rcases h.base i hi g hg with hbase | hapart
          · have hlt : i < kNumLevels := by
              by_contra hge
              rw [hv.files_eq_nil i (not_lt.mp hge)] at hg
              exact List.not_mem_nil hg
            have hdeeper : i ∈ c.deeperLevels :=
              List.mem_filter.mpr ⟨List.mem_range.mpr hlt, decide_eq_true hi⟩
            obtain ⟨hlo, hhi⟩ := hv.rank_mem hg hm
            rw [hmkey] at hlo hhi
            rcases habsent i hdeeper g hbase with hlt | hlt
            · exact absurd hhi hlt.not_ge
            · exact absurd hlo hlt.not_ge
          · exact absurd (hapart x hx) hmeets
        · exact h.newer_inputs hv hi hg hnot0 m hm d ⟨x, hx, hdx⟩ (hmkey.trans hkey.symm)
      · exact absurd hmkey (houts g hg m hm)

end Install

/-- Different files have no version in common. -/
theorem differ_of_ne {i j : ℕ} (hv : v.Ordered) (hf : f ∈ v.files i) (hg : g ∈ v.files j)
    (hne : f ≠ g) (he : e ∈ f.entries) (he' : e' ∈ g.entries) : Differ e e' := by
  intro hkey
  rcases lt_trichotomy i j with hij | rfl | hji
  · exact (hv.deeper i j hij e ⟨f, hf, he⟩ e' ⟨g, hg, he'⟩ hkey).ne'
  · rcases Nat.eq_zero_or_pos i with rfl | hpos
    · rcases lt_trichotomy f.number g.number with hlt | heq | hgt
      · exact (hv.newest g hg f hf hlt e' he' e he hkey.symm).ne
      · exact absurd (hv.number_inj 0 f hf 0 g hg heq).2 hne
      · exact (hv.newest f hf g hg hgt e he e' he' hkey).ne'
    · exact absurd hkey (key_ne_of_apart hv hf hg (hv.apart hpos hf hg hne).symm he he')
  · exact (hv.deeper j i hji e' ⟨g, hg, he'⟩ e ⟨f, hf, he⟩ hkey.symm).ne

theorem functional_allEntries (hv : v.Ordered) : Functional v.allEntries := by
  rintro e ⟨i, f, hf, he⟩ e' ⟨j, g, hg, he'⟩ hkey hseq
  by_cases hfg : f = g
  · subst hfg
    obtain ⟨es, hes⟩ := hv.represents i f hf
    rw [hes.entries_eq] at he he'
    exact List.Pairwise.forall_of_forall_of_flip
      (R := fun e e' => e.key = e'.key → e.seq = e'.seq → e = e') (fun _ _ _ _ => rfl)
      (hes.sorted.imp fun hbefore hkey hseq => absurd hseq (Differ.of_before hbefore hkey))
      (hes.sorted.imp fun hbefore hkey hseq =>
        absurd hseq.symm (Differ.of_before hbefore hkey.symm)) he he' hkey hseq
  · exact absurd hseq (differ_of_ne hv hf hg hfg he he' hkey)

theorem mem_inputGroups : (∃ files ∈ c.inputGroups, f ∈ files) ↔ f ∈ c.inputs0 ++ c.inputs1 := by
  rw [inputGroups]
  split <;> simp

theorem Sound.sorted_inputGroups (h : c.Sound v) :
    ∀ files ∈ c.inputGroups, files.Pairwise EndsBefore := by
  intro files hfiles
  rw [inputGroups, List.mem_append, List.mem_singleton] at hfiles
  rcases hfiles with hfiles | rfl
  · split at hfiles
    · obtain ⟨f, -, rfl⟩ := List.mem_map.mp hfiles
      exact List.pairwise_singleton _ _
    · rename_i hlevel
      rw [List.mem_singleton.mp hfiles]
      exact h.sorted0 (Nat.pos_of_ne_zero hlevel)
  · exact h.sorted1

theorem Sound.differ_inputGroups (h : c.Sound v) (hv : v.Ordered) :
    c.inputGroups.Pairwise fun files files' => ∀ f ∈ files, ∀ g ∈ files', f ≠ g := by
  have hcross : ∀ f ∈ c.inputs0, ∀ g ∈ c.inputs1, f ≠ g := by
    rintro f hf _ hg rfl
    have := (hv.number_inj _ f (h.subset0 f hf) _ f (h.subset1 f hg) rfl).1
    omega
  rw [inputGroups, List.pairwise_append]
  refine ⟨?_, List.pairwise_singleton _ _, ?_⟩
  · split
    · refine List.pairwise_map.mpr (h.nodup0.imp fun hne f hf g hg => ?_)
      rwa [List.mem_singleton.mp hf, List.mem_singleton.mp hg]
    · exact List.pairwise_singleton _ _
  · intro files hfiles files' hfiles' f hf g hg
    rw [List.mem_singleton.mp hfiles'] at hg
    split at hfiles
    · obtain ⟨x, hx, rfl⟩ := List.mem_map.mp hfiles
      rw [List.mem_singleton.mp hf]
      exact hcross x hx g hg
    · rw [List.mem_singleton.mp hfiles] at hf
      exact hcross f hf g hg

/-- The merging iterator goes through the entries of the inputs, in their order. -/
theorem Sound.mergedInput_eq (h : c.Sound v) (hv : v.Ordered) :
    ∃ ms : List Entry, c.mergedInput = ms.map entryPair ∧ ms.Pairwise EntryBefore ∧
      (∀ e, e ∈ ms ↔ e ∈ c.inputEntries) ∧ ∀ e ∈ ms, EntryFits e := by
  have hex : ∀ f, ∃ es, f ∈ c.inputs0 ++ c.inputs1 → f.Represents es := by
    intro f
    by_cases hf : f ∈ c.inputs0 ++ c.inputs1
    · obtain ⟨i, -, hfi⟩ := h.mem_files hf
      exact (hv.represents i f hfi).imp fun _ hes _ => hes
    · exact ⟨[], fun hmem => absurd hmem hf⟩
  choose entriesOf hrep using hex
  have hgroup : ∀ files ∈ c.inputGroups, ∀ f ∈ files, f ∈ c.inputs0 ++ c.inputs1 :=
    fun files hfiles f hf => mem_inputGroups.mp ⟨files, hfiles, hf⟩
  have hentries : ∀ f ∈ c.inputs0 ++ c.inputs1, ∀ e ∈ entriesOf f, e ∈ f.entries := by
    intro f hf e he
    rw [(hrep f hf).entries_eq]
    exact he
  obtain ⟨ms, hms, hsorted, hmem⟩ := foldr_merge (c.inputGroups.map (List.flatMap entriesOf))
    (fun es hes => by
      obtain ⟨files, hfiles, rfl⟩ := List.mem_map.mp hes
      refine List.pairwise_flatMap.mpr ⟨fun f hf => (hrep f (hgroup files hfiles f hf)).sorted, ?_⟩
      refine (h.sorted_inputGroups files hfiles).imp_of_mem fun {f g} hf hg hends e he e' he' => ?_
      have hle := ((hrep f (hgroup files hfiles f hf)).rank_mem he).2
      have hge := ((hrep g (hgroup files hfiles g hg)).rank_mem he').1
      exact .inl ((bytewiseCompare_eq_lt_iff _ _).mpr ((hle.trans_lt hends).trans_le hge)))
    (fun es hes e he => by
      obtain ⟨files, hfiles, rfl⟩ := List.mem_map.mp hes
      obtain ⟨f, hf, he⟩ := List.mem_flatMap.mp he
      exact (hrep f (hgroup files hfiles f hf)).fits e he)
    (List.pairwise_map.mpr ((h.differ_inputGroups hv).imp_of_mem
      fun {files files'} hfiles hfiles' hne e he e' he' => by
        obtain ⟨f, hf, he⟩ := List.mem_flatMap.mp he
        obtain ⟨g, hg, he'⟩ := List.mem_flatMap.mp he'
        have hf' := hgroup files hfiles f hf
        have hg' := hgroup files' hfiles' g hg
        obtain ⟨i, -, hfi⟩ := h.mem_files hf'
        obtain ⟨j, -, hgj⟩ := h.mem_files hg'
        exact differ_of_ne hv hfi hgj (hne f hf g hg) (hentries f hf' e he) (hentries g hg' e' he')))
  refine ⟨ms, ?_, hsorted, fun e => ?_, fun e he => ?_⟩
  · rw [← hms, mergedInput, List.map_map]
    refine congrArg (List.foldr _ []) (List.map_congr_left fun files hfiles => ?_)
    rw [Function.comp_apply, List.map_flatMap]
    exact List.flatMap_congr fun f hf => (hrep f (hgroup files hfiles f hf)).contents_eq
  · rw [hmem]
    constructor
    · rintro ⟨_, hes, he⟩
      obtain ⟨files, hfiles, rfl⟩ := List.mem_map.mp hes
      obtain ⟨f, hf, he⟩ := List.mem_flatMap.mp he
      have hf := hgroup files hfiles f hf
      exact ⟨f, hf, hentries f hf e he⟩
    · rintro ⟨f, hf, he⟩
      obtain ⟨files, hfiles, hmem⟩ := mem_inputGroups.mpr hf
      rw [(hrep f hf).entries_eq] at he
      exact ⟨_, List.mem_map_of_mem hfiles, List.mem_flatMap.mpr ⟨f, hmem, he⟩⟩
  · obtain ⟨_, hes, he⟩ := (hmem e).mp he
    obtain ⟨files, hfiles, rfl⟩ := List.mem_map.mp hes
    obtain ⟨f, hf, he⟩ := List.mem_flatMap.mp he
    exact (hrep f (hgroup files hfiles f hf)).fits e he

theorem Sound.replaces_move (h : c.Sound v) (hv : v.Ordered) (hinputs : c.inputs0 = [f]) :
    c.Replaces v [f] := by
  have hf : f ∈ c.inputs0 := hinputs ▸ List.mem_cons_self
  refine ⟨?_, ?_, List.pairwise_singleton _ _, List.pairwise_singleton _ _, ?_⟩
  · intro g hg
    rw [List.mem_singleton.mp hg]
    exact hv.represents _ f (h.subset0 f hf)
  · intro g hg e he
    rw [List.mem_singleton.mp hg] at he
    exact ⟨f, List.mem_append_left _ hf, he⟩
  · intro g hg i x hx heq
    rw [List.mem_singleton.mp hg] at heq ⊢
    obtain ⟨rfl, rfl⟩ := hv.number_inj i x hx _ f (h.subset0 f hf) heq
    exact ⟨rfl, hf, rfl⟩

/-- The files are what a compaction has written: in parts `kss`, what it keeps of the entries `ms`
of its inputs. -/
structure Written (c : Compaction) (number : ℕ) (outs : List FileMetaData) (ms : List Entry)
    (kss : List (List Entry)) : Prop where
  mem_iff : ∀ e, e ∈ ms ↔ e ∈ c.inputEntries
  keeps : c.Keeps ms kss.flatten
  holds : OutputsHold number outs kss

theorem Sound.exists_written (h : c.Sound v) (hv : v.Ordered) (tableSize : TableSizes)
    (number : ℕ) :
    ∃ ms kss, c.Written number (outputFiles tableSize number (c.doCompactionWork tableSize)) ms kss ∧
      (c.doCompactionWork tableSize).length = kss.length := by
  obtain ⟨ms, hmerged, hsorted, hmem, hfits⟩ := h.mergedInput_eq hv
  obtain ⟨kss, hwork, hne, hkeeps⟩ := doCompactionWork_keeps tableSize hmerged h.ordered hsorted hfits
    (fun e he => h.seq_le e ((hmem e).mp he)) h.snapshot_lt
  have hflat : ∀ ks ∈ kss, ks.Sublist ms := fun ks hks =>
    (List.sublist_flatten_of_mem hks).trans hkeeps.sublist
  obtain ⟨-, hascending⟩ := List.pairwise_flatten.mp (hkeeps.ascending hsorted)
  refine ⟨ms, kss, ⟨hmem, hkeeps, ?_⟩, by rw [hwork, List.length_map]⟩
  rw [hwork]
  exact outputsHold_outputFiles tableSize number hne
    (fun ks hks => hsorted.sublist (hflat ks hks))
    (fun ks hks e he => hfits e ((hflat ks hks).subset he)) hascending

namespace Written

variable {number : ℕ} {outs : List FileMetaData} {ms : List Entry} {kss : List (List Entry)}

theorem mem_flatten_iff (hw : c.Written number outs ms kss) {e : Entry} :
    e ∈ kss.flatten ↔ ∃ f ∈ outs, e ∈ f.entries := by
  rw [List.mem_flatten]
  constructor
  · rintro ⟨ks, hks, he⟩
    obtain ⟨f, hf, hrep⟩ := hw.holds.exists_file ks hks
    refine ⟨f, hf, ?_⟩
    rw [hrep.entries_eq]
    exact he
  · rintro ⟨f, hf, he⟩
    obtain ⟨ks, hks, hrep⟩ := hw.holds.represents f hf
    rw [hrep.entries_eq] at he
    exact ⟨ks, hks, he⟩

theorem replaces (hw : c.Written number outs ms kss)
    (hnumber : ∀ i, ∀ g ∈ v.files i, g.number < number) : c.Replaces v outs := by
  refine ⟨?_, ?_, hw.holds.endsBefore, hw.holds.numbers.imp Nat.ne_of_lt, ?_⟩
  · intro f hf
    obtain ⟨ks, -, hrep⟩ := hw.holds.represents f hf
    exact ⟨ks, hrep⟩
  · exact fun f hf e he =>
      (hw.mem_iff e).mp (hw.keeps.sublist.subset (hw.mem_flatten_iff.mpr ⟨f, hf, he⟩))
  · intro f hf i g hg heq
    have hlt := hnumber i g hg
    have hle := hw.holds.number_le f hf
    omega

theorem exists_newest (hw : c.Written number outs ms kss) (h : c.Sound v) {e : Entry}
    (he : e ∈ c.inputEntries) :
    ∃ m ∈ ms, m.key = e.key ∧ ∀ f ∈ ms, f.key = e.key → f.seq ≤ m.seq := by
  obtain ⟨a, ha⟩ := exists_answers {e | e ∈ ms} e.key c.smallestSnapshot
  cases ha with
  | found hm =>
      exact ⟨_, hm.mem, hm.key_eq, fun f hf hkey =>
        hm.max f hf hkey (h.seq_le f ((hw.mem_iff f).mp hf))⟩
  | notFound hnone =>
      exact absurd (h.seq_le e he) (hnone e ((hw.mem_iff e).mpr he) rfl).not_ge

theorem eq_of_seq_eq (hw : c.Written number outs ms kss) (h : c.Sound v) (hv : v.Ordered)
    {e f : Entry} (he : e ∈ ms) (hf : f ∈ ms) (hkey : e.key = f.key) (hseq : e.seq = f.seq) :
    e = f :=
  functional_allEntries hv e (h.inputEntries_subset ((hw.mem_iff e).mp he)) f
    (h.inputEntries_subset ((hw.mem_iff f).mp hf)) hkey hseq

/-- What the output files lack is hidden: by a newer entry in them, or by a deletion of a key that
neither they nor the deeper levels have. -/
theorem hidden (hw : c.Written number outs ms kss) (h : c.Sound v) (hv : v.Ordered) {e : Entry}
    (he : e ∈ c.inputEntries) :
    (∃ f ∈ outs, ∃ m ∈ f.entries, m.key = e.key ∧ (m = e ∨ e.seq < m.seq)) ∨
      ∃ d ∈ c.inputEntries, d.key = e.key ∧ e.seq ≤ d.seq ∧ d.value = none ∧
        (∀ f ∈ outs, ∀ m ∈ f.entries, m.key ≠ e.key) ∧
        ∀ level ∈ c.deeperLevels, Absent c.inputVersion e.key level := by
  obtain ⟨m, hm, hkey, hmax⟩ := hw.exists_newest h he
  have hems := (hw.mem_iff e).mpr he
  by_cases hkept : m ∈ kss.flatten
  · obtain ⟨f, hf, hmf⟩ := hw.mem_flatten_iff.mp hkept
    refine .inl ⟨f, hf, m, hmf, hkey, ?_⟩
    rcases (hmax e hems rfl).eq_or_lt with hseq | hlt
    · exact .inl (hw.eq_of_seq_eq h hv hm hems hkey hseq.symm)
    · exact .inr hlt
  · obtain ⟨hnone, habsent⟩ := (hw.keeps.dropped m hm fun f hf hfkey =>
      hmax f hf (hfkey.trans hkey)).resolve_left hkept
    rw [hkey] at habsent
    refine .inr ⟨m, (hw.mem_iff m).mp hm, hkey, hmax e hems rfl, hnone, ?_, habsent⟩
    intro f hf x hx hxkey
    -- An entry of the key that is kept is the newest one.
    have hx := hw.mem_flatten_iff.mpr ⟨f, hf, hx⟩
    have hxms := hw.keeps.sublist.subset hx
    have hge := hw.keeps.first x hx m hm (hkey.trans hxkey.symm)
    have hseq := Nat.le_antisymm (hmax x hxms hxkey) hge
    exact hkept (hw.eq_of_seq_eq h hv hxms hm (hxkey.trans hkey.symm) hseq ▸ hx)

end Written

/-- The edit of a compaction puts files in place of the inputs, and what they lack is hidden. -/
theorem Sound.exists_editOf (h : c.Sound v) (hv : v.Ordered) (tableSize : TableSizes)
    {number : ℕ} (hnumber : ∀ i, ∀ g ∈ v.files i, g.number < number) :
    ∃ outs, c.edit tableSize number = c.editOf outs ∧ c.Replaces v outs ∧
      (∀ g ∈ outs, g.number < number + c.outputCount tableSize) ∧
      ∀ e ∈ c.inputEntries,
        (∃ f ∈ outs, ∃ m ∈ f.entries, m.key = e.key ∧ (m = e ∨ e.seq < m.seq)) ∨
        ∃ d ∈ c.inputEntries, d.key = e.key ∧ e.seq ≤ d.seq ∧ d.value = none ∧
          (∀ f ∈ outs, ∀ m ∈ f.entries, m.key ≠ e.key) ∧
          ∀ level ∈ c.deeperLevels, Absent c.inputVersion e.key level := by
  rw [edit, outputCount]
  by_cases hmove : c.isTrivialMove = true
  · have hlength := of_decide_eq_true hmove
    obtain ⟨f, hf⟩ := List.length_eq_one_iff.mp hlength.1
    have hnil := List.eq_nil_of_length_eq_zero hlength.2.1
    rw [if_pos hmove, if_pos hmove, hf]
    refine ⟨[f], rfl, h.replaces_move hv hf, ?_, ?_⟩
    · intro g hg
      rw [List.mem_singleton.mp hg]
      exact hnumber _ f (h.subset0 f (hf ▸ List.mem_cons_self))
    · rintro e ⟨g, hg, he⟩
      rw [hf, hnil, List.append_nil, List.mem_singleton] at hg
      exact .inl ⟨f, List.mem_cons_self, e, hg ▸ he, rfl, .inl rfl⟩
  · obtain ⟨ms, kss, hw, hlength⟩ := h.exists_written hv tableSize number
    rw [if_neg hmove, if_neg hmove, hlength]
    exact ⟨_, rfl, hw.replaces hnumber, hw.holds.number_lt, fun e he => hw.hidden h hv he⟩

/-- What `LogAndApply` does with the edit of a compaction: the new version is in order, and what it
lacks was hidden from who reads at the number of the compaction or above. -/
theorem Sound.install (h : c.Sound v) (hv : v.Ordered) (tableSize : TableSizes)
    {number : ℕ} (hnumber : ∀ i, ∀ g ∈ v.files i, g.number < number) :
    (v.apply (c.edit tableSize number)).Ordered ∧
      Compacts c.smallestSnapshot v.allEntries (v.apply (c.edit tableSize number)).allEntries ∧
      ∀ i, ∀ g ∈ (v.apply (c.edit tableSize number)).files i,
        g.number < number + c.outputCount tableSize := by
  obtain ⟨outs, hedit, hrep, houts, hhidden⟩ := h.exists_editOf hv tableSize hnumber
  rw [hedit]
  refine ⟨h.ordered_editOf hv hrep, h.compacts_editOf hv hrep hhidden, fun i g hg => ?_⟩
  rcases (mem_apply_editOf hv h hrep).mp hg with ⟨hg, -⟩ | ⟨-, hg⟩
  · exact (hnumber i g hg).trans_le (Nat.le_add_right _ _)
  · exact houts g hg

end Compaction

end Leveldb

end UnifyFramework
