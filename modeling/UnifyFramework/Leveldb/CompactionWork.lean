import UnifyFramework.Leveldb.Compaction

/-!
# What a compaction writes

The merging iterator goes through the entries of the inputs in their order. Of each key the loop
keeps the first entry, which is the newest, unless it is a deletion and no deeper level has the
key; nobody reads below the newest entry, so the others are dropped. The output files hold what is
kept, in the order of the keys.
-/

namespace UnifyFramework

namespace Leveldb

open Versioned

theorem internalKeyCompare_ne_gt_iff (a b : Slice) :
    internalKeyCompare a b ≠ .gt ↔
      rank (extractUserKey a) < rank (extractUserKey b) ∨
        extractUserKey a = extractUserKey b ∧ extractTag b ≤ extractTag a := by
  rw [internalKeyCompare]
  cases hcmp : bytewiseCompare (extractUserKey a) (extractUserKey b) with
  | lt => simp [(bytewiseCompare_eq_lt_iff _ _).mp hcmp]
  | gt =>
      have hlt := (bytewiseCompare_eq_gt_iff _ _).mp hcmp
      have hne : extractUserKey a ≠ extractUserKey b := fun heq => hlt.ne' (congrArg rank heq)
      simp [hlt.le, hne]
  | eq =>
      have heq : extractUserKey a = extractUserKey b := Std.LawfulEqCmp.eq_of_compare hcmp
      rcases lt_trichotomy (extractTag a) (extractTag b) with hlt | htag | hgt
      · simp [heq, hlt, hlt.not_gt]
      · simp [heq, htag]
      · simp [heq, hgt, hgt.le]

def keyLe (a b : Slice × Slice) : Bool := internalKeyCompare a.1 b.1 ≠ .gt

theorem keyLe_trans (a b c : Slice × Slice) (hab : keyLe a b = true) (hbc : keyLe b c = true) :
    keyLe a c = true := by
  rw [keyLe, decide_eq_true_eq, internalKeyCompare_ne_gt_iff] at *
  rcases hab with hab | ⟨hab, htag⟩ <;> rcases hbc with hbc | ⟨hbc, htag'⟩
  · exact .inl (hab.trans hbc)
  · exact .inl (hbc ▸ hab)
  · exact .inl (hab ▸ hbc)
  · exact .inr ⟨hab.trans hbc, htag'.trans htag⟩

theorem keyLe_total (a b : Slice × Slice) : (keyLe a b || keyLe b a) = true := by
  rw [Bool.or_eq_true, keyLe, keyLe, decide_eq_true_eq, decide_eq_true_eq,
    internalKeyCompare_ne_gt_iff, internalKeyCompare_ne_gt_iff]
  rcases lt_trichotomy (rank (extractUserKey a.1)) (rank (extractUserKey b.1)) with hlt | heq | hgt
  · exact .inl (.inl hlt)
  · have heq := rank_injective heq
    exact (Nat.le_total (extractTag b.1) (extractTag a.1)).imp (fun h => .inr ⟨heq, h⟩)
      fun h => .inr ⟨heq.symm, h⟩
  · exact .inr (.inl hgt)

def entryLe (e f : Entry) : Bool := keyLe (entryPair e) (entryPair f)

def Differ (e f : Entry) : Prop := e.key = f.key → e.seq ≠ f.seq

variable {e f : Entry}

theorem Differ.of_before (h : EntryBefore e f) : Differ e f := by
  rcases h with hlt | ⟨-, hseq⟩
  · exact fun hkey => absurd hkey (ne_of_cmp_lt hlt)
  · exact fun _ => hseq.ne'

theorem entryLe_iff (he : EntryFits e) (hf : EntryFits f) (hdiffer : Differ e f) :
    entryLe e f = true ↔ EntryBefore e f := by
  have hcode := (entryType e).code_le_one
  have hcode' := (entryType f).code_le_one
  rw [entryLe, keyLe, decide_eq_true_eq, entryPair, entryPair, internalKeyCompare_ne_gt_iff,
    entryKey, entryKey, extractUserKey_appendInternalKey, extractUserKey_appendInternalKey,
    extractTag_appendInternalKey hf.seq_le, extractTag_appendInternalKey he.seq_le,
    packSequenceAndType_eq, packSequenceAndType_eq, EntryBefore, Before, bytewiseCompare_eq_lt_iff]
  refine or_congr_right (and_congr_right fun hkey => ?_)
  have hne := hdiffer hkey
  simp only
  omega

/-- Merging the entries of sorted children gives all of them, sorted. -/
theorem foldr_merge (ess : List (List Entry)) (hsorted : ∀ es ∈ ess, es.Pairwise EntryBefore)
    (hfits : ∀ es ∈ ess, ∀ e ∈ es, EntryFits e)
    (hcross : ess.Pairwise fun es fs => ∀ e ∈ es, ∀ f ∈ fs, Differ e f) :
    ∃ ms : List Entry,
      (ess.map (List.map entryPair)).foldr (fun child rest => child.merge rest keyLe) [] =
        ms.map entryPair ∧ ms.Pairwise EntryBefore ∧ ∀ e, e ∈ ms ↔ ∃ es ∈ ess, e ∈ es := by
  induction ess with
  | nil => exact ⟨[], rfl, .nil, fun e => by simp⟩
  | cons es ess ih =>
      obtain ⟨ms, hms, hpairwise, hmem⟩ := ih (fun fs hfs => hsorted fs (List.mem_cons_of_mem es hfs))
        (fun fs hfs => hfits fs (List.mem_cons_of_mem es hfs)) hcross.of_cons
      have hall : ∀ e ∈ es ++ ms, EntryFits e := by
        intro e he
        rcases List.mem_append.mp he with he | he
        · exact hfits es List.mem_cons_self e he
        · obtain ⟨fs, hfs, he⟩ := (hmem e).mp he
          exact hfits fs (List.mem_cons_of_mem es hfs) e he
      have hdiffer : (es ++ ms).Pairwise Differ := by
        refine List.pairwise_append.mpr ⟨(hsorted es List.mem_cons_self).imp .of_before,
          hpairwise.imp .of_before, fun e he f hf => ?_⟩
        obtain ⟨fs, hfs, hf⟩ := (hmem f).mp hf
        exact List.rel_of_pairwise_cons hcross hfs e he f hf
      have hperm : (es.merge ms entryLe).Perm (es ++ ms) := List.merge_perm_append entryLe
      have hdiffer' : (es.merge ms entryLe).Pairwise Differ :=
        (hperm.pairwise_iff fun h hkey => (h hkey.symm).symm).mpr hdiffer
      refine ⟨es.merge ms entryLe, ?_, ?_, fun e => ?_⟩
      · rw [List.map_cons, List.foldr_cons, hms]
        exact (List.map_merge (r := entryLe) (s := keyLe) (f := entryPair) fun _ _ _ _ => rfl).symm
      · have hle_of_before : ∀ fs : List Entry, (∀ e ∈ fs, EntryFits e) → fs.Pairwise EntryBefore →
            fs.Pairwise fun e f => entryLe e f = true := fun fs hfs hbefore =>
          hbefore.imp_of_mem fun he hf h =>
            (entryLe_iff (hfs _ he) (hfs _ hf) (.of_before h)).mpr h
        have hmerged : (es.merge ms entryLe).Pairwise fun e f => entryLe e f = true :=
          List.pairwise_merge (fun e f g => keyLe_trans (entryPair e) (entryPair f) (entryPair g))
            (fun e f => keyLe_total (entryPair e) (entryPair f)) es ms
            (hle_of_before es (hfits es List.mem_cons_self) (hsorted es List.mem_cons_self))
            (hle_of_before ms (fun e he => hall e (List.mem_append_right es he)) hpairwise)
        refine (hmerged.and hdiffer').imp_of_mem fun he hf ⟨h, hne⟩ => ?_
        exact (entryLe_iff (hall _ (hperm.mem_iff.mp he)) (hall _ (hperm.mem_iff.mp hf)) hne).mp h
      · rw [hperm.mem_iff, List.mem_append, hmem]
        simp

namespace Compaction

variable {v : Version} {c : Compaction} {st : State} {k : Slice}

def Passed (v : Version) (levelPtrs : ℕ → ℕ) (k : Slice) : Prop :=
  ∀ level, ∀ f ∈ (v.files level).take (levelPtrs level), rank f.largestUserKey < rank k

/-- The key is in the range of no file of the level. -/
def Absent (v : Version) (k : Slice) (level : ℕ) : Prop :=
  ∀ f ∈ v.files level, rank f.largestUserKey < rank k ∨ rank k < rank f.smallestUserKey

section Advance

variable {files : List FileMetaData} {ptr : ℕ}

/-- The files `advance` moves past. -/
def movedPast (files : List FileMetaData) (k : Slice) (ptr : ℕ) : List FileMetaData :=
  (files.drop ptr).takeWhile fun f => bytewiseCompare k f.largestUserKey = .gt

theorem advance_fst : (advance files k ptr).1 = ptr + (movedPast files k ptr).length := rfl

theorem advance_snd :
    (advance files k ptr).2 =
      match files[(advance files k ptr).1]? with
      | none => false
      | some f => bytewiseCompare k f.smallestUserKey ≠ .lt := rfl

theorem take_advance :
    files.take (advance files k ptr).1 = files.take ptr ++ movedPast files k ptr := by
  have hprefix : movedPast files k ptr <+: files.drop ptr := List.takeWhile_prefix _
  rw [advance_fst, List.take_add, ← List.prefix_iff_eq_take.mp hprefix]

theorem advance_passed (hpassed : ∀ f ∈ files.take ptr, rank f.largestUserKey < rank k) :
    ∀ f ∈ files.take (advance files k ptr).1, rank f.largestUserKey < rank k := by
  intro f hf
  rw [take_advance] at hf
  rcases List.mem_append.mp hf with hf | hf
  · exact hpassed f hf
  · have hgt := List.mem_takeWhile_imp hf
    rw [decide_eq_true_eq, bytewiseCompare_eq_gt_iff] at hgt
    exact hgt

/-- The key is in no range if it is not in that of the file where the pointer stops. -/
theorem advance_absent (hpassed : ∀ f ∈ files.take ptr, rank f.largestUserKey < rank k)
    (hsorted : files.Pairwise EndsBefore)
    (hvalid : ∀ f ∈ files, rank f.smallestUserKey ≤ rank f.largestUserKey)
    (hfalse : (advance files k ptr).2 = false) :
    ∀ f ∈ files, rank f.largestUserKey < rank k ∨ rank k < rank f.smallestUserKey := by
  intro f hf
  rw [← List.take_append_drop (advance files k ptr).1 files] at hf
  rcases List.mem_append.mp hf with hf | hf
  · exact .inl (advance_passed hpassed f hf)
  have hhead : (files.drop (advance files k ptr).1).head? = files[(advance files k ptr).1]? :=
    List.head?_drop
  have hpairwise : (files.drop (advance files k ptr).1).Pairwise EndsBefore :=
    hsorted.sublist (List.drop_sublist _ _)
  cases hrest : files.drop (advance files k ptr).1 with
  | nil =>
      rw [hrest] at hf
      exact absurd hf List.not_mem_nil
  | cons g rest =>
      rw [hrest] at hf hhead hpairwise
      rw [advance_snd, ← hhead] at hfalse
      simp only [List.head?_cons, decide_eq_false_iff_not, not_not, bytewiseCompare_eq_lt_iff] at hfalse
      rcases List.mem_cons.mp hf with rfl | hf
      · exact .inr hfalse
      · have hg : g ∈ files := List.mem_of_mem_drop (hrest ▸ List.mem_cons_self)
        exact .inr ((hfalse.trans_le (hvalid g hg)).trans (List.rel_of_pairwise_cons hpairwise hf))

end Advance

/-- What `IsBaseLevelForKey` says, and what it leaves for later keys. -/
theorem isBaseLevelForKey_spec (hv : v.Ordered) {levels : List ℕ}
    (hlevels : ∀ level ∈ levels, 0 < level) {levelPtrs : ℕ → ℕ} (hpassed : Passed v levelPtrs k) :
    Passed v (isBaseLevelForKey v k levels levelPtrs).2 k ∧
      ((isBaseLevelForKey v k levels levelPtrs).1 = true → ∀ level ∈ levels, Absent v k level) := by
  induction levels generalizing levelPtrs with
  | nil => exact ⟨hpassed, fun _ level hlevel => absurd hlevel List.not_mem_nil⟩
  | cons level levels ih =>
      have hpassed' : Passed v
          (Function.update levelPtrs level (advance (v.files level) k (levelPtrs level)).1) k := by
        intro i f hf
        by_cases hi : i = level
        · subst hi
          rw [Function.update_self] at hf
          exact advance_passed (hpassed i) f hf
        · rw [Function.update_of_ne hi] at hf
          exact hpassed i f hf
      simp only [isBaseLevelForKey]
      cases hrange : (advance (v.files level) k (levelPtrs level)).2 with
      | true => exact ⟨hpassed', fun h => Bool.noConfusion h⟩
      | false =>
          obtain ⟨hnext, hbase⟩ := ih (fun i hi => hlevels i (List.mem_cons_of_mem level hi)) hpassed'
          refine ⟨hnext, fun htrue i hi => ?_⟩
          rcases List.mem_cons.mp hi with rfl | hi
          · exact advance_absent (hpassed i) (hv.disjoint i (hlevels i List.mem_cons_self))
              (fun f hf => hv.rank_smallest_le hf) hrange
          · exact hbase htrue i hi

section Loop

variable {e : Entry} {done ks : List Entry}

/-- What the loop keeps of the entries it has gone through: of each key the first one, unless it
is a deletion that hides nothing. -/
structure Keeps (c : Compaction) (done ks : List Entry) : Prop where
  sublist : ks.Sublist done
  first : ∀ e ∈ ks, ∀ f ∈ done, f.key = e.key → f.seq ≤ e.seq
  dropped : ∀ e ∈ done, (∀ f ∈ done, f.key = e.key → f.seq ≤ e.seq) →
    e ∈ ks ∨ e.value = none ∧ ∀ level ∈ c.deeperLevels, Absent c.inputVersion e.key level

structure LoopInv (c : Compaction) (st : State) (done ks : List Entry) : Prop where
  keeps : c.Keeps done ks
  written : st.outputs.flatten ++ st.builder = ks.map entryPair
  nonempty : ∀ output ∈ st.outputs, output ≠ []
  current : st.currentUserKey = done.getLast?.map Entry.key
  lastSequence : ∀ e ∈ done.getLast?, st.lastSequenceForKey = e.seq
  passed : ∀ k, (∀ e ∈ done, rank e.key ≤ rank k) → Passed c.inputVersion st.levelPtrs k

theorem loopInv_initialState (c : Compaction) : c.LoopInv initialState [] [] where
  keeps := ⟨.slnil, by simp, by simp⟩
  written := rfl
  nonempty := by simp [initialState]
  current := rfl
  lastSequence := by simp
  passed k _ level f hf := absurd hf (by simp [initialState])

theorem LoopInv.finishOutput (h : c.LoopInv st done ks) :
    c.LoopInv (finishOutput st) done ks := by
  rw [Compaction.finishOutput]
  split
  · exact h
  · rename_i hbuilder
    refine ⟨h.keeps, ?_, ?_, h.current, h.lastSequence, h.passed⟩
    · rw [← h.written, List.flatten_append, List.flatten_singleton, List.append_nil]
    · intro output houtput
      rcases List.mem_append.mp houtput with houtput | houtput
      · exact h.nonempty output houtput
      · rwa [List.mem_singleton.mp houtput]

theorem LoopInv.shouldStopBefore (h : c.LoopInv st done ks) (key : Slice) :
    c.LoopInv (c.shouldStopBefore key st).2 done ks :=
  ⟨h.keeps, h.written, h.nonempty, h.current, h.lastSequence, h.passed⟩

/-- `dropEntry` for the key of an entry. -/
theorem dropEntry_entryKey (he : EntryFits e) :
    c.dropEntry (entryKey e) st =
      if (if st.currentUserKey = some e.key then st.lastSequenceForKey else kMaxSequenceNumber) ≤
          c.smallestSnapshot then
        (true, { st with currentUserKey := some e.key, lastSequenceForKey := e.seq })
      else if e.value = none ∧ e.seq ≤ c.smallestSnapshot then
        ((isBaseLevelForKey c.inputVersion e.key c.deeperLevels st.levelPtrs).1,
          { st with
            currentUserKey := some e.key
            lastSequenceForKey := e.seq
            levelPtrs := (isBaseLevelForKey c.inputVersion e.key c.deeperLevels st.levelPtrs).2 })
      else (false, { st with currentUserKey := some e.key, lastSequenceForKey := e.seq }) := by
  have hparse : parseInternalKey (entryKey e) = some ⟨e.key, e.seq, entryType e⟩ :=
    parseInternalKey_appendInternalKey he.seq_le
  have htype : entryType e = .deletion ↔ e.value = none := by
    rw [entryType]
    cases e.value <;> simp
  rw [dropEntry, hparse]
  simp only [htype]
  cases hcurrent : st.currentUserKey with
  | none => simp
  | some userKey =>
      by_cases hkey : e.key = userKey
      · simp [hkey]
      · have hcmp : bytewiseCompare e.key userKey ≠ .eq := fun heq =>
          hkey (Std.LawfulEqCmp.eq_of_compare heq)
        simp [hcmp, Ne.symm hkey]

theorem Keeps.hidden (h : c.Keeps done ks) {l : Entry} (hl : l ∈ done) (hkey : l.key = e.key)
    (hseq : e.seq < l.seq) : c.Keeps (done ++ [e]) ks where
  sublist := h.sublist.trans (List.sublist_append_left done [e])
  first x hx f hf hfx := by
    rcases List.mem_append.mp hf with hf | hf
    · exact h.first x hx f hf hfx
    · rw [List.mem_singleton] at hf
      subst hf
      exact (hseq.trans_le (h.first x hx l hl (hkey.trans hfx))).le
  dropped x hx hfirst := by
    rcases List.mem_append.mp hx with hx | hx
    · exact h.dropped x hx fun f hf => hfirst f (List.mem_append_left [e] hf)
    · rw [List.mem_singleton] at hx
      subst hx
      exact absurd (hfirst l (List.mem_append_left _ hl) hkey) hseq.not_ge

/-- The first entry of a key is kept. -/
theorem Keeps.kept (h : c.Keeps done ks) (hnew : ∀ f ∈ done, f.key ≠ e.key) :
    c.Keeps (done ++ [e]) (ks ++ [e]) where
  sublist := h.sublist.append (List.Sublist.refl [e])
  first x hx f hf hfx := by
    rcases List.mem_append.mp hx with hx | hx <;> rcases List.mem_append.mp hf with hf | hf
    · exact h.first x hx f hf hfx
    · rw [List.mem_singleton] at hf
      exact absurd (hf ▸ hfx.symm) (hnew x (h.sublist.subset hx))
    · rw [List.mem_singleton] at hx
      exact absurd (hx ▸ hfx) (hnew f hf)
    · rw [List.mem_singleton] at hx hf
      rw [hx, hf]
  dropped x hx hfirst := by
    rcases List.mem_append.mp hx with hx | hx
    · exact (h.dropped x hx fun f hf => hfirst f (List.mem_append_left [e] hf)).imp_left
        (List.mem_append_left [e])
    · exact .inl (List.mem_append_right ks hx)

/-- A deletion of a key that no deeper level has goes. -/
theorem Keeps.deletion (h : c.Keeps done ks) (hnew : ∀ f ∈ done, f.key ≠ e.key)
    (hvalue : e.value = none)
    (habsent : ∀ level ∈ c.deeperLevels, Absent c.inputVersion e.key level) :
    c.Keeps (done ++ [e]) ks where
  sublist := h.sublist.trans (List.sublist_append_left done [e])
  first x hx f hf hfx := by
    rcases List.mem_append.mp hf with hf | hf
    · exact h.first x hx f hf hfx
    · rw [List.mem_singleton] at hf
      exact absurd (hf ▸ hfx.symm) (hnew x (h.sublist.subset hx))
  dropped x hx hfirst := by
    rcases List.mem_append.mp hx with hx | hx
    · exact h.dropped x hx fun f hf => hfirst f (List.mem_append_left [e] hf)
    · rw [List.mem_singleton] at hx
      subst hx
      exact .inr ⟨hvalue, habsent⟩

/-- The user key the loop remembers is that of the last entry, so an entry of another key is the
first one of its key. -/
theorem LoopInv.key_ne (h : c.LoopInv st done ks) (hsorted : (done ++ [e]).Pairwise EntryBefore)
    (hcurrent : st.currentUserKey ≠ some e.key) : ∀ f ∈ done, f.key ≠ e.key := by
  intro f hf hkey
  obtain ⟨hdone, -, hbefore⟩ := List.pairwise_append.mp hsorted
  have hne : done ≠ [] := List.ne_nil_of_mem hf
  have hlast : done.getLast? = some (done.getLast hne) := List.getLast?_eq_some_getLast hne
  have hle := FileMetaData.rank_le_of_before
    (hbefore _ (List.getLast_mem hne) e List.mem_cons_self)
  have hge : rank f.key ≤ rank (done.getLast hne).key := by
    obtain ⟨done', hdone'⟩ := List.getLast?_eq_some_iff.mp hlast
    rw [hdone'] at hf hdone
    rcases List.mem_append.mp hf with hf | hf
    · exact FileMetaData.rank_le_of_before
        ((List.pairwise_append.mp hdone).2.2 f hf _ List.mem_cons_self)
    · rw [List.mem_singleton.mp hf]
  rw [hkey] at hge
  refine hcurrent ?_
  rw [h.current, hlast, Option.map_some, rank_injective (le_antisymm hle hge)]

theorem LoopInv.next (h : c.LoopInv st done ks) {st' : State} {ks' : List Entry}
    (hkeeps : c.Keeps (done ++ [e]) ks') (houtputs : st'.outputs = st.outputs)
    (hwritten : st.outputs.flatten ++ st'.builder = ks'.map entryPair)
    (hcurrent : st'.currentUserKey = some e.key) (hseq : st'.lastSequenceForKey = e.seq)
    (hpassed : ∀ k, rank e.key ≤ rank k → Passed c.inputVersion st.levelPtrs k →
      Passed c.inputVersion st'.levelPtrs k) : c.LoopInv st' (done ++ [e]) ks' where
  keeps := hkeeps
  written := by rw [houtputs, hwritten]
  nonempty := by
    rw [houtputs]
    exact h.nonempty
  current := by rw [hcurrent, List.getLast?_concat, Option.map_some]
  lastSequence := by
    rw [List.getLast?_concat, hseq]
    rintro _ ⟨⟩
    rfl
  passed k hk := hpassed k (hk e (List.mem_append_right done List.mem_cons_self))
    (h.passed k fun f hf => hk f (List.mem_append_left [e] hf))

theorem LoopInv.dropEntry (h : c.LoopInv st done ks) (hv : c.inputVersion.Ordered)
    (hsorted : (done ++ [e]).Pairwise EntryBefore) (he : EntryFits e)
    (hsnapshot : ∀ f ∈ done ++ [e], f.seq ≤ c.smallestSnapshot)
    (hmax : c.smallestSnapshot < kMaxSequenceNumber) :
    ((c.dropEntry (entryKey e) st).1 = true ∧
      c.LoopInv (c.dropEntry (entryKey e) st).2 (done ++ [e]) ks) ∨
    ((c.dropEntry (entryKey e) st).1 = false ∧
      c.LoopInv { (c.dropEntry (entryKey e) st).2 with
        builder := (c.dropEntry (entryKey e) st).2.builder ++ [entryPair e] }
        (done ++ [e]) (ks ++ [e])) := by
  obtain ⟨-, -, hbefore⟩ := List.pairwise_append.mp hsorted
  have hlast : (done ++ [e]).getLast? = some e := List.getLast?_concat
  rw [dropEntry_entryKey he]
  by_cases hcurrent : st.currentUserKey = some e.key
  · -- The entry before has the same key and is newer.
    have hmap := h.current.symm.trans hcurrent
    obtain ⟨l, hl, hkey⟩ := Option.map_eq_some_iff.mp hmap
    have hmem : l ∈ done := List.mem_of_getLast? hl
    have hseq : e.seq < l.seq := by
      rcases hbefore l hmem e List.mem_cons_self with hlt | ⟨-, hseq⟩
      · exact absurd hkey (ne_of_cmp_lt hlt)
      · exact hseq
    have hle : st.lastSequenceForKey ≤ c.smallestSnapshot := by
      rw [h.lastSequence l hl]
      exact hsnapshot l (List.mem_append_left [e] hmem)
    rw [if_pos hcurrent, if_pos hle]
    exact .inl ⟨rfl, h.next (h.keeps.hidden hmem hkey hseq) rfl h.written rfl rfl fun _ _ => id⟩
  · have hnew := h.key_ne hsorted hcurrent
    have hkept : st.outputs.flatten ++ (st.builder ++ [entryPair e]) =
        (ks ++ [e]).map entryPair := by
      rw [← List.append_assoc, h.written, List.map_append, List.map_singleton]
    rw [if_neg hcurrent, if_neg hmax.not_ge]
    by_cases hvalue : e.value = none
    · have hrank : ∀ f ∈ done, rank f.key ≤ rank e.key := fun f hf =>
        FileMetaData.rank_le_of_before (hbefore f hf e List.mem_cons_self)
      have hlevels : ∀ level ∈ c.deeperLevels, 0 < level := by
        intro level hlevel
        have := of_decide_eq_true (List.mem_filter.mp hlevel).2
        omega
      obtain ⟨hpassed, hbase⟩ := isBaseLevelForKey_spec hv hlevels (h.passed e.key hrank)
      have hmono : ∀ k, rank e.key ≤ rank k → Passed c.inputVersion st.levelPtrs k →
          Passed c.inputVersion
            (isBaseLevelForKey c.inputVersion e.key c.deeperLevels st.levelPtrs).2 k :=
        fun k hk _ level f hf => (hpassed level f hf).trans_le hk
      rw [if_pos ⟨hvalue, hsnapshot e (List.mem_append_right done List.mem_cons_self)⟩]
      cases hdrop : (isBaseLevelForKey c.inputVersion e.key c.deeperLevels st.levelPtrs).1 with
      | true =>
          exact .inl ⟨rfl, h.next (h.keeps.deletion hnew hvalue (hbase hdrop)) rfl h.written rfl rfl
            hmono⟩
      | false => exact .inr ⟨rfl, h.next (h.keeps.kept hnew) rfl hkept rfl rfl hmono⟩
    · rw [if_neg fun hnone => hvalue hnone.1]
      exact .inr ⟨rfl, h.next (h.keeps.kept hnew) rfl hkept rfl rfl fun _ _ => id⟩

theorem LoopInv.processEntry (tableSize : TableSizes) (h : c.LoopInv st done ks)
    (hv : c.inputVersion.Ordered) (hsorted : (done ++ [e]).Pairwise EntryBefore) (he : EntryFits e)
    (hsnapshot : ∀ f ∈ done ++ [e], f.seq ≤ c.smallestSnapshot)
    (hmax : c.smallestSnapshot < kMaxSequenceNumber) :
    ∃ ks', c.LoopInv (c.processEntry tableSize st (entryPair e)) (done ++ [e]) ks' := by
  obtain ⟨st', hst, hstop⟩ : ∃ st',
      (if (c.shouldStopBefore (entryKey e) st).1 then
        Compaction.finishOutput (c.shouldStopBefore (entryKey e) st).2
      else (c.shouldStopBefore (entryKey e) st).2) = st' ∧ c.LoopInv st' done ks := by
    refine ⟨_, rfl, ?_⟩
    split
    · exact (h.shouldStopBefore _).finishOutput
    · exact h.shouldStopBefore _
  unfold Compaction.processEntry
  dsimp only [entryPair]
  rw [hst]
  rcases hstop.dropEntry hv hsorted he hsnapshot hmax with ⟨hdrop, hnext⟩ | ⟨hdrop, hnext⟩
  · exact ⟨ks, by rwa [if_pos hdrop]⟩
  · refine ⟨ks ++ [e], ?_⟩
    rw [if_neg (Bool.eq_false_iff.mp hdrop)]
    split
    · exact hnext.finishOutput
    · exact hnext

theorem LoopInv.foldl (tableSize : TableSizes) {ms : List Entry}
    (h : c.LoopInv st done ks) (hv : c.inputVersion.Ordered)
    (hsorted : (done ++ ms).Pairwise EntryBefore) (hfits : ∀ e ∈ ms, EntryFits e)
    (hsnapshot : ∀ f ∈ done ++ ms, f.seq ≤ c.smallestSnapshot)
    (hmax : c.smallestSnapshot < kMaxSequenceNumber) :
    ∃ ks', c.LoopInv ((ms.map entryPair).foldl (c.processEntry tableSize) st) (done ++ ms) ks' := by
  induction ms generalizing st done ks with
  | nil => exact ⟨ks, by rwa [List.append_nil]⟩
  | cons e ms ih =>
      have hassoc : done ++ e :: ms = done ++ [e] ++ ms := by
        rw [List.append_assoc, List.singleton_append]
      rw [hassoc] at hsorted hsnapshot
      obtain ⟨ks', hstep⟩ := h.processEntry tableSize hv
        (hsorted.sublist (List.sublist_append_left _ _)) (hfits e List.mem_cons_self)
        (fun f hf => hsnapshot f (List.mem_append_left ms hf)) hmax
      obtain ⟨ks'', hrest⟩ := ih hstep hsorted (fun f hf => hfits f (List.mem_cons_of_mem e hf))
        hsnapshot
      exact ⟨ks'', by rwa [hassoc, List.map_cons, List.foldl_cons]⟩

/-- Of each key one entry is kept, in the order of the keys. -/
theorem Keeps.ascending (h : c.Keeps done ks) (hsorted : done.Pairwise EntryBefore) :
    ks.Pairwise fun e f => rank e.key < rank f.key := by
  refine (hsorted.sublist h.sublist).imp_of_mem fun {e f} he hf hbefore => ?_
  rcases hbefore with hlt | ⟨hkey, hseq⟩
  · exact (bytewiseCompare_eq_lt_iff _ _).mp hlt
  · exact absurd (h.first f hf e (h.sublist.subset he) hkey) hseq.not_ge

end Loop

theorem exists_flatten_eq {α β : Type*} {f : α → β} {outputs : List (List β)} {ks : List α}
    (h : outputs.flatten = ks.map f) :
    ∃ kss : List (List α), outputs = kss.map (List.map f) ∧ kss.flatten = ks := by
  induction outputs generalizing ks with
  | nil => exact ⟨[], rfl, (List.map_eq_nil_iff.mp h.symm).symm⟩
  | cons output outputs ih =>
      obtain ⟨front, rest, rfl, rfl, hrest⟩ := List.map_eq_append_iff.mp h.symm
      obtain ⟨kss, rfl, rfl⟩ := ih hrest.symm
      exact ⟨front :: kss, rfl, rfl⟩

/-- The output files hold what is kept, each of them a part of it. -/
theorem doCompactionWork_keeps (tableSize : TableSizes) {ms : List Entry}
    (hmerged : c.mergedInput = ms.map entryPair) (hv : c.inputVersion.Ordered)
    (hsorted : ms.Pairwise EntryBefore) (hfits : ∀ e ∈ ms, EntryFits e)
    (hsnapshot : ∀ e ∈ ms, e.seq ≤ c.smallestSnapshot)
    (hmax : c.smallestSnapshot < kMaxSequenceNumber) :
    ∃ kss : List (List Entry), c.doCompactionWork tableSize = kss.map (List.map entryPair) ∧
      (∀ ks ∈ kss, ks ≠ []) ∧ c.Keeps ms kss.flatten := by
  obtain ⟨ks, hloop⟩ :=
    (loopInv_initialState c).foldl tableSize hv hsorted hfits hsnapshot hmax
  have hfinish := hloop.finishOutput
  rw [List.nil_append, ← hmerged] at hfinish
  have hwritten := hfinish.written
  have hbuilder : ∀ st : State, (finishOutput st).builder = [] := by
    intro st
    rw [finishOutput]
    split
    · assumption
    · rfl
  rw [hbuilder, List.append_nil] at hwritten
  obtain ⟨kss, houtputs, rfl⟩ := exists_flatten_eq hwritten
  refine ⟨kss, houtputs, fun ks hks => ?_, hfinish.keeps⟩
  have hne := hfinish.nonempty (ks.map entryPair) (houtputs ▸ List.mem_map_of_mem hks)
  exact fun hnil => hne (by rw [hnil, List.map_nil])

structure OutputsHold (number : ℕ) (outs : List FileMetaData) (kss : List (List Entry)) :
    Prop where
  represents : ∀ f ∈ outs, ∃ ks ∈ kss, f.Represents ks
  exists_file : ∀ ks ∈ kss, ∃ f ∈ outs, f.Represents ks
  endsBefore : outs.Pairwise EndsBefore
  numbers : outs.Pairwise fun f g => f.number < g.number
  number_le : ∀ f ∈ outs, number ≤ f.number
  number_lt : ∀ f ∈ outs, f.number < number + kss.length

theorem endsBefore_of_represents {f g : FileMetaData} {ks ks' : List Entry} (hf : f.Represents ks)
    (hg : g.Represents ks') (hlt : ∀ e ∈ ks, ∀ e' ∈ ks', rank e.key < rank e'.key) :
    EndsBefore f g := by
  obtain ⟨e, he, hlargest, -⟩ := hf.exists_largest
  obtain ⟨e', he', hsmallest, -⟩ := hg.exists_smallest
  rw [EndsBefore, FileMetaData.largestUserKey, FileMetaData.smallestUserKey, hlargest, hsmallest,
    FileMetaData.extractUserKey_entryKey, FileMetaData.extractUserKey_entryKey]
  exact hlt e he e' he'

theorem outputsHold_outputFiles (tableSize : TableSizes) (number : ℕ)
    {kss : List (List Entry)} (hne : ∀ ks ∈ kss, ks ≠ [])
    (hsorted : ∀ ks ∈ kss, ks.Pairwise EntryBefore) (hfits : ∀ ks ∈ kss, ∀ e ∈ ks, EntryFits e)
    (hascending : kss.Pairwise fun ks ks' => ∀ e ∈ ks, ∀ e' ∈ ks', rank e.key < rank e'.key) :
    OutputsHold number (outputFiles tableSize number (kss.map (List.map entryPair))) kss := by
  induction kss generalizing number with
  | nil =>
      exact ⟨fun f hf => absurd hf List.not_mem_nil, fun ks hks => absurd hks List.not_mem_nil, .nil,
        .nil, fun f hf => absurd hf List.not_mem_nil, fun f hf => absurd hf List.not_mem_nil⟩
  | cons ks kss ih =>
      have hrest := ih (number + 1) (fun x hx => hne x (List.mem_cons_of_mem ks hx))
        (fun x hx => hsorted x (List.mem_cons_of_mem ks hx))
        (fun x hx => hfits x (List.mem_cons_of_mem ks hx)) hascending.of_cons
      obtain ⟨f, hf, hfrep, hnumber⟩ := FileMetaData.ofContents_represents
        (hne ks List.mem_cons_self) (hsorted ks List.mem_cons_self) (hfits ks List.mem_cons_self)
        number (tableSize.finished (ks.map entryPair))
      rw [List.map_cons, outputFiles, hf, Option.toList_some, List.singleton_append]
      constructor
      · intro g hg
        rcases List.mem_cons.mp hg with rfl | hg
        · exact ⟨ks, List.mem_cons_self, hfrep⟩
        · obtain ⟨ks', hks', hrep⟩ := hrest.represents g hg
          exact ⟨ks', List.mem_cons_of_mem ks hks', hrep⟩
      · intro ks' hks'
        rcases List.mem_cons.mp hks' with rfl | hks'
        · exact ⟨f, List.mem_cons_self, hfrep⟩
        · obtain ⟨g, hg, hrep⟩ := hrest.exists_file ks' hks'
          exact ⟨g, List.mem_cons_of_mem f hg, hrep⟩
      · refine hrest.endsBefore.cons fun g hg => ?_
        obtain ⟨ks', hks', hrep⟩ := hrest.represents g hg
        exact endsBefore_of_represents hfrep hrep (List.rel_of_pairwise_cons hascending hks')
      · refine hrest.numbers.cons fun g hg => ?_
        rw [hnumber]
        exact hrest.number_le g hg
      · intro g hg
        rcases List.mem_cons.mp hg with rfl | hg
        · exact hnumber.ge
        · exact (Nat.le_succ number).trans (hrest.number_le g hg)
      · intro g hg
        rw [List.length_cons]
        rcases List.mem_cons.mp hg with rfl | hg
        · omega
        · have := hrest.number_lt g hg
          omega

end Compaction

end Leveldb

end UnifyFramework
