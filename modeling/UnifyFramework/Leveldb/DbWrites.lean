import UnifyFramework.Leveldb.DbInvariant

/-!
# Writes and reads

What the writers of the queue do: the leader takes batches from the front of the queue in their
order, and what it writes to the log and into the table becomes visible when it lets the writers
go. Readers get the value their key had when they began, whatever happens meanwhile.
-/

namespace UnifyFramework

namespace Leveldb

open Versioned

structure WriterHolds (w : Writer) (write : Write) : Prop where
  batch : Option.Rel WriteBatch.Holds w.batch write.ops
  sync_eq : w.sync = write.sync

structure InHand (updates : WriteBatch) (n lastSequence : ℕ) (pending : List Write) (g : Group) :
    Prop where
  batch : g.IsBatch updates
  seq_eq : g.seq = lastSequence + 1
  commit_eq : g.commit = Store.commitOf (pending.take n)
  sync_eq : pending.head?.map Write.sync = some g.sync
  pos : 0 < n
  le_length : n ≤ pending.length
  last_lt : lastSequence + g.ops.length < kMaxSequenceNumber

def LeaderHolds (leader : Leader) (lastSequence : ℕ) (inflight : List Group)
    (pending : List Write) : Prop :=
  match leader with
  | .writing _ updates n => ∃ g, inflight = [g] ∧ InHand updates n lastSequence pending g
  | _ => inflight = []

theorem InHand.append {updates : WriteBatch} {n lastSequence : ℕ} {pending : List Write} {g : Group}
    (h : InHand updates n lastSequence pending g) (more : List Write) :
    InHand updates n lastSequence (pending ++ more) g where
  batch := h.batch
  seq_eq := h.seq_eq
  commit_eq := by rw [h.commit_eq, List.take_append_of_le_length h.le_length]
  sync_eq := by
    have hne : pending ≠ [] := List.ne_nil_of_length_pos (h.pos.trans_le h.le_length)
    rw [List.head?_append_of_ne_nil _ hne, h.sync_eq]
  pos := h.pos
  le_length := by
    rw [List.length_append]
    exact h.le_length.trans (Nat.le_add_right _ _)
  last_lt := h.last_lt

theorem LeaderHolds.append {leader : Leader} {lastSequence : ℕ} {inflight : List Group}
    {pending : List Write} (h : LeaderHolds leader lastSequence inflight pending)
    (more : List Write) : LeaderHolds leader lastSequence inflight (pending ++ more) := by
  cases leader with
  | idle => exact h
  | makingRoom force => exact h
  | writing progress updates n =>
      obtain ⟨g, hinflight, hg⟩ := h
      exact ⟨g, hinflight, hg.append more⟩

structure ReaderHolds (mem : MemTable) (lastSequence : ℕ) (r : Reader)
    (read : Slice × Option Slice) : Prop where
  key_eq : r.key = read.1
  key_lt : r.key.length + 8 < 2 ^ 32
  snapshot_le : r.snapshot ≤ lastSequence
  result_eq : r.result mem = .ofOption read.2

structure RefinesAt (o : Options) (db : Db) (a : Store) (p : Places) : Prop where
  inv : Inv o db p
  writers : List.Forall₂ WriterHolds db.writers a.pending
  leader : LeaderHolds db.leader db.versions.lastSequence p.inflight a.pending
  compaction : ∀ c ∈ db.compaction,
    c.Sound db.versions.current ∧ c.smallestSnapshot ≤ db.versions.lastSequence
  readers : List.Forall₂ (ReaderHolds db.mem db.versions.lastSequence) db.readers a.reads
  commits : a.commits = p.visible.map Group.commit
  logged : a.logged = db.leader.logged

def Refines (o : Options) (db : Db) (a : Store) : Prop := ∃ p, RefinesAt o db a p

variable {o : Options} {db db' : Db} {a : Store} {p : Places}

theorem holds_batchOf {ops : List Op} (hlength : ops.length < 2 ^ 32) (hfits : ∀ op ∈ ops, op.Fits) :
    (batchOf ops).Holds ops := by
  have hfold : ∀ (ops' done : List Op) (b : WriteBatch), b.Holds done →
      (done ++ ops').length < 2 ^ 32 → (∀ op ∈ ops', op.Fits) →
      (ops'.foldl Op.addTo b).Holds (done ++ ops') := by
    intro ops'
    induction ops' with
    | nil =>
        intro done b hb _ _
        rwa [List.append_nil]
    | cons op ops' ih =>
        intro done b hb hlt hfits
        have hassoc : done ++ op :: ops' = done ++ [op] ++ ops' := by
          rw [List.append_assoc, List.singleton_append]
        rw [hassoc] at hlt ⊢
        refine ih _ _ (hb.addTo (hfits op List.mem_cons_self) ?_) hlt
          fun op' hop' => hfits op' (List.mem_cons_of_mem op hop')
        rw [List.length_append, List.length_append, List.length_singleton] at hlt
        omega
  exact hfold ops [] .new WriteBatch.holds_new hlength hfits

theorem maxGroupSize_lt (size : ℕ) : maxGroupSize size < 2 ^ 32 := by
  rw [maxGroupSize]
  split
  · have : 128 <<< 10 = 131072 := by decide
    omega
  · decide

/-- The group has the operations of the first writers, in their order. None of them wants the log
to be synced if the leader does not. -/
theorem groupLoop_holds {maxSize : ℕ} (hmax : maxSize < 2 ^ 32) {ws : List Writer}
    {pending : List Write} (hws : List.Forall₂ WriterHolds ws pending) (sync : Bool)
    (group : BatchGroup) (ops : List Op) (hgroup : group.result.Holds ops)
    (hsize : ops.length ≤ group.size) :
    ∃ n ≤ pending.length,
      (groupLoop sync maxSize ws group).result.Holds (ops ++ Store.opsOf (pending.take n)) ∧
      (groupLoop sync maxSize ws group).writers = group.writers + n ∧
      ∀ write ∈ pending.take n, write.sync = true → sync = true := by
  induction hws generalizing group ops with
  | nil =>
      refine ⟨0, le_rfl, by simpa [Store.opsOf, groupLoop] using hgroup, rfl, ?_⟩
      exact fun _ hwrite => absurd hwrite List.not_mem_nil
  | @cons w write ws pending hw _ ih =>
      have hstop : ∃ n ≤ (write :: pending).length,
          group.result.Holds (ops ++ Store.opsOf ((write :: pending).take n)) ∧
          group.writers = group.writers + n ∧
          ∀ write' ∈ (write :: pending).take n, write'.sync = true → sync = true :=
        ⟨0, Nat.zero_le _, by simpa [Store.opsOf] using hgroup, rfl,
          fun _ hwrite => absurd hwrite List.not_mem_nil⟩
      rw [groupLoop]
      split
      · exact hstop
      · rename_i hbreak
        have hsync : write.sync = true → sync = true := by
          rw [← hw.sync_eq]
          revert hbreak
          cases w.sync <;> cases sync <;> simp
        have htake : ∀ {n : ℕ}, (∀ write' ∈ pending.take n, write'.sync = true → sync = true) →
            ∀ write' ∈ (write :: pending).take (n + 1), write'.sync = true → sync = true := by
          intro n hrest
          rw [List.take_succ_cons]
          exact List.forall_mem_cons.mpr ⟨hsync, hrest⟩
        obtain ⟨hbatch, -⟩ := hw
        obtain ⟨wops, wsync⟩ := write
        dsimp only at hbatch
        cases hwb : w.batch with
        | none =>
            rw [hwb] at hbatch
            cases hbatch
            obtain ⟨n, hn, hholds, hcount, hrest⟩ :=
              ih { group with writers := group.writers + 1 } ops hgroup hsize
            refine ⟨n + 1, Nat.succ_le_succ hn, hholds, ?_, htake hrest⟩
            rw [hcount, Nat.add_assoc, Nat.add_comm 1 n]
        | some b =>
            rw [hwb] at hbatch
            cases hbatch with
            | @some _ ops' hb =>
            dsimp only
            split
            · exact hstop
            · rename_i hfit
              have hlength := hb.length_le
              rw [WriteBatch.byteSize] at hfit
              -- A group of several batches is small, so the count does not overflow.
              have hresult : (if group.isFirst then WriteBatch.new.append group.result
                  else group.result).Holds ops := by
                split
                · exact WriteBatch.holds_new.append hgroup (by rw [List.length_nil]; omega)
                · exact hgroup
              have hsize' : (ops ++ ops').length ≤ group.size + b.byteSize := by
                rw [List.length_append, WriteBatch.byteSize]
                omega
              obtain ⟨n, hn, hholds, hcount, hrest⟩ :=
                ih ⟨_, false, group.size + b.byteSize, group.writers + 1⟩ (ops ++ ops')
                  (hresult.append hb (by omega)) hsize'
              refine ⟨n + 1, Nat.succ_le_succ hn, ?_, hcount.trans ?_, htake hrest⟩
              · rwa [List.append_assoc] at hholds
              · rw [Nat.add_assoc, Nat.add_comm 1 n]

theorem buildBatchGroup_holds {batch : WriteBatch} {ops : List Op} (hbatch : batch.Holds ops)
    {ws : List Writer} {pending : List Write} (hws : List.Forall₂ WriterHolds ws pending)
    (sync : Bool) :
    ∃ n, (buildBatchGroup batch sync ws).writers = n + 1 ∧ n ≤ pending.length ∧
      (buildBatchGroup batch sync ws).result.Holds
        (Store.opsOf ((⟨some ops, sync⟩ :: pending).take (n + 1))) ∧
      Store.commitOf ((⟨some ops, sync⟩ :: pending).take (n + 1)) =
        ⟨Store.opsOf ((⟨some ops, sync⟩ :: pending).take (n + 1)), sync⟩ := by
  have hlength := hbatch.length_le
  have hsize : ops.length ≤ batch.byteSize := by
    rw [WriteBatch.byteSize]
    omega
  obtain ⟨n, hn, hholds, hcount, hsync⟩ := groupLoop_holds (maxGroupSize_lt batch.byteSize) hws sync
    ⟨batch, true, batch.byteSize, 1⟩ ops hbatch hsize
  refine ⟨n, hcount.trans (Nat.add_comm 1 n), hn, hholds, ?_⟩
  have hany : (sync || (pending.take n).any Write.sync) = sync := by
    rw [Bool.or_eq_left_iff_imp, List.any_eq_true]
    rintro ⟨write, hwrite, hwsync⟩
    exact hsync write hwrite hwsync
  rw [Store.commitOf, List.take_succ_cons, List.any_cons, hany]

namespace RefinesAt

theorem beginRead {key : Slice} (h : RefinesAt o db a p) (hstep : db.beginRead key = some db') :
    RefinesAt o db' { a with reads := a.reads ++ [(key, a.contents[key]?)] } p := by
  rw [Db.beginRead] at hstep
  split at hstep
  · rename_i hkey
    obtain rfl := Option.some.inj hstep
    refine { h with inv := { h.inv with }, readers := ?_ }
    refine List.rel_append h.readers (.cons ⟨rfl, hkey, le_rfl, ?_⟩ .nil)
    have hget : db.get key = .ofOption a.contents[key]? := by
      rw [h.inv.get_eq hkey, Store.contents, h.commits,
        Store.getElem?_replay (writes_groupEntries p.visible)]
    exact hget
  · cases hstep

theorem endRead {i : ℕ} (h : RefinesAt o db a p) (hstep : db.endRead i = some db') :
    RefinesAt o db' { a with reads := a.reads.eraseIdx i } p := by
  rw [Db.endRead] at hstep
  split at hstep
  · obtain rfl := Option.some.inj hstep
    refine { h with inv := { h.inv with }, readers := ?_ }
    rw [List.eraseIdx_eq_take_drop_succ, List.eraseIdx_eq_take_drop_succ]
    exact List.rel_append (List.forall₂_take i h.readers) (List.forall₂_drop (i + 1) h.readers)
  · cases hstep

theorem write {ops : Option (List Op)} {sync : Bool} (h : RefinesAt o db a p)
    (hstep : db.write ops sync = some db') :
    RefinesAt o db' { a with pending := a.pending ++ [⟨ops, sync⟩] } p := by
  rw [Db.write] at hstep
  split at hstep
  · rename_i hfits
    obtain rfl := Option.some.inj hstep
    refine { h with
      inv := { h.inv with }
      writers := List.rel_append h.writers (.cons ?_ .nil)
      leader := h.leader.append [⟨ops, sync⟩] }
    refine ⟨?_, rfl⟩
    cases ops with
    | none => exact .none
    | some ops => exact .some (holds_batchOf (hfits.1.trans (by decide)) hfits.2)
  · cases hstep

/-- The leader goes on without anything in the log. -/
theorem setLeader (h : RefinesAt o db a p) (leader : Leader) (inflight : List Group)
    (hold : db.leader.inLog = false) (hnew : leader.inLog = false)
    (hgroups : ∀ e ∈ groupEntries inflight, db.versions.lastSequence < e.seq)
    (hgrow : (groupEntries inflight).Pairwise fun e f => e.seq < f.seq)
    (hrange : ∀ g ∈ inflight, g.InRange)
    (hleader : LeaderHolds leader db.versions.lastSequence inflight a.pending) :
    RefinesAt o { db with leader := leader } a { p with inflight := inflight } := by
  have hvisible : (groupEntries (p.visible ++ inflight)).Pairwise fun e f => e.seq < f.seq := by
    rw [groupEntries_append]
    refine List.pairwise_append.mpr ⟨h.inv.grow_visible, hgrow, fun e he f hf => ?_⟩
    exact (h.inv.seq_le e he).trans_lt (hgroups f hf)
  refine { h with
    inv := { h.inv with grow := hvisible, seq_gt := hgroups, inRange := ?_, mem := ?_, log := ?_ }
    leader := hleader
    logged := ?_ }
  · exact List.forall_mem_append.mpr ⟨(List.forall_mem_append.mp h.inv.inRange).1, hrange⟩
  · have hmem := h.inv.mem
    simp only [Places.inserted, Leader.inMem_eq_false hold, Leader.inMem_eq_false hnew] at hmem ⊢
    exact hmem
  · have hlog := h.inv.log
    simp only [Places.logged, hold, hnew] at hlog ⊢
    exact hlog
  · rw [h.logged, Leader.logged_eq_zero hold, Leader.logged_eq_zero hnew]

/-- The leader has nothing in hand. -/
theorem clearLeader (h : RefinesAt o db a p) {leader : Leader} (hold : db.leader.inLog = false)
    (hnew : leader.inLog = false)
    (hleader : LeaderHolds leader db.versions.lastSequence [] a.pending) :
    RefinesAt o { db with leader := leader } a { p with inflight := [] } :=
  h.setLeader leader [] hold hnew (fun _ he => absurd he List.not_mem_nil) .nil
    (fun _ hg => absurd hg List.not_mem_nil) hleader

theorem lead (h : RefinesAt o db a p) (hstep : db.lead = some db') :
    ∃ p', RefinesAt o db' a p' := by
  rw [Db.lead] at hstep
  split at hstep
  · rename_i w ws hleader hwriters
    obtain rfl := Option.some.inj hstep
    exact ⟨_, h.clearLeader (by rw [hleader]; rfl) rfl rfl⟩
  · cases hstep

theorem leave {sync : Bool} {ws : List Writer} (h : RefinesAt o db a p)
    (hleader : db.leader.inLog = false) (hdb : db.writers = ⟨none, sync⟩ :: ws) :
    ∃ sync' rest, a.pending = ⟨none, sync'⟩ :: rest ∧
      ∃ p', RefinesAt o { db with writers := ws, leader := .idle } { a with pending := rest } p' := by
  have hwriters := h.writers
  rw [hdb] at hwriters
  obtain ⟨⟨ops, sync'⟩, rest, hfirst, hrest, hpending⟩ := List.forall₂_cons_left_iff.mp hwriters
  obtain ⟨⟨⟩, -⟩ := hfirst
  have hidle : RefinesAt o { db with leader := .idle } a { p with inflight := [] } :=
    h.clearLeader hleader rfl rfl
  exact ⟨sync', rest, hpending, { p with inflight := [] },
    { hidle with inv := { hidle.inv with }, writers := hrest, leader := rfl }⟩

theorem grouped {batch : WriteBatch} {sync : Bool} {ws : List Writer} {updates : WriteBatch}
    (h : RefinesAt o db a p) (hleader : db.leader.inLog = false)
    (hdb : db.writers = ⟨some batch, sync⟩ :: ws)
    (hupdates : updates =
      (buildBatchGroup batch sync ws).result.setSequence (db.versions.lastSequence + 1))
    (hlast : db.versions.lastSequence + updates.count < kMaxSequenceNumber) :
    ∃ p', RefinesAt o
      { db with leader := .writing .grouped updates (buildBatchGroup batch sync ws).writers } a p' := by
  have hwriters := h.writers
  rw [hdb] at hwriters
  obtain ⟨⟨ops', sync'⟩, rest, ⟨hbatch, hsync⟩, hrest, hpending⟩ :=
    List.forall₂_cons_left_iff.mp hwriters
  obtain rfl : sync = sync' := hsync
  obtain ⟨ops, rfl, hholds⟩ : ∃ ops, ops' = some ops ∧ batch.Holds ops := by
    cases hbatch with
    | some hholds => exact ⟨_, rfl, hholds⟩
  obtain ⟨n, hcount, hle, hgroup, hcommit⟩ := buildBatchGroup_holds hholds hrest sync
  rw [← hpending] at hgroup hcommit
  have hbatch := hgroup.setSequence (db.versions.lastSequence + 1)
  rw [← hupdates] at hbatch
  rw [hbatch.count_eq] at hlast
  have hseq : updates.sequence = db.versions.lastSequence + 1 := by
    rw [hupdates]
    refine WriteBatch.sequence_setSequence ?_ _
    rw [kMaxSequenceNumber] at hlast
    omega
  rw [hcount]
  refine ⟨_, h.setLeader _ [⟨db.versions.lastSequence + 1, _, sync⟩] hleader rfl ?_ ?_ ?_
    ⟨_, rfl, ⟨hbatch, hseq⟩, rfl, hcommit.symm, ?_, Nat.succ_pos n, ?_, hlast⟩⟩
  · intro e he
    rw [groupEntries_singleton] at he
    exact (seq_of_mem_opEntries he).1
  · rw [groupEntries_singleton]
    exact opEntries_grow _ _
  · intro g hg
    rw [List.mem_singleton.mp hg]
    refine ⟨Nat.succ_pos _, ?_⟩
    rw [Nat.add_right_comm]
    exact hlast
  · rw [hpending]
    rfl
  · rw [hpending, List.length_cons]
    exact Nat.succ_le_succ hle

theorem group (h : RefinesAt o db a p) (hleader : db.leader.inLog = false)
    (hstep : db.group = some db') :
    (∃ sync rest, a.pending = ⟨none, sync⟩ :: rest ∧
      ∃ p', RefinesAt o db' { a with pending := rest } p') ∨
      ∃ p', RefinesAt o db' a p' := by
  rw [Db.group] at hstep
  split at hstep
  · cases hstep
  · rename_i sync ws hdb
    obtain rfl := Option.some.inj hstep
    exact .inl (h.leave hleader hdb)
  · rename_i batch sync ws hdb
    dsimp only at hstep
    split at hstep
    · rename_i hlast
      obtain rfl := Option.some.inj hstep
      exact .inr (h.grouped hleader hdb rfl hlast)
    · cases hstep

theorem switchMemTable (h : RefinesAt o db a p) {force : Bool}
    (hleader : db.leader = .makingRoom force) (himm : db.imm = none) :
    ∃ p', RefinesAt o db.switchMemTable a p' := by
  have hinv := h.inv
  have hempty := h.leader
  rw [hleader] at hempty
  have hinflight : p.inflight = [] := hempty
  have hold := hinv.imm
  rw [ImmHolds, himm] at hold
  obtain ⟨himmGroups, hlive⟩ := hold
  have hmem := hinv.mem
  have hlog := hinv.log
  simp only [Places.inserted, Places.logged, hleader, Leader.inMem, Leader.inLog, Bool.false_eq_true,
    if_false, List.append_nil] at hmem hlog
  have hvisible : (⟨p.flushed, p.mem, [], [], p.bound⟩ : Places).visible = p.visible := by
    simp [Places.visible, himmGroups]
  refine ⟨⟨p.flushed, p.mem, [], [], p.bound⟩, ?_⟩
  refine { h with
    inv := { hinv with
      grow := ?_
      seq_le := ?_
      seq_gt := fun e he => absurd he List.not_mem_nil
      inRange := ?_
      mem := memHolds_new
      log := logHolds_new o
      imm := ⟨hmem, db.logfileNumber, db.log, db.synced, ?_, hlog⟩
      manifest_next := hinv.manifest_next.trans (Nat.le_succ _)
      logfile_lt := Nat.lt_succ_self _
      logNumber_le := hinv.logNumber_le.trans hinv.logfile_lt.le
      oldLogs_lt := ?_ }
    leader := rfl
    readers := ?_
    commits := ?_
    logged := by rw [h.logged, hleader]; rfl }
  · rw [hvisible]
    simpa [hinflight] using hinv.grow
  · rw [hvisible]
    exact hinv.seq_le
  · rw [hvisible]
    simpa [hinflight] using hinv.inRange
  · have hsplit : db.switchMemTable.liveLogs = db.liveLogs ++
        [db.logFile].filter fun log => db.manifest.logNumber ≤ log.number :=
      List.filter_append ..
    rw [hsplit, hlive, List.nil_append]
    simp [Db.logFile, hinv.logNumber_le]
  · intro log hmem
    rcases List.mem_append.mp hmem with hmem | hmem
    · exact (hinv.oldLogs_lt log hmem).trans hinv.logfile_lt
    · rw [List.mem_singleton.mp hmem]
      exact hinv.logfile_lt
  · exact List.forall₂_map_left_iff.mpr (h.readers.imp fun r read hr =>
      ⟨hr.key_eq, hr.key_lt, hr.snapshot_le, hr.result_eq⟩)
  · rw [hvisible]
    exact h.commits

theorem makeRoom (h : RefinesAt o db a p) (hstep : db.makeRoom o = some db') :
    (∃ sync rest, a.pending = ⟨none, sync⟩ :: rest ∧
      ∃ p', RefinesAt o db' { a with pending := rest } p') ∨
      ∃ p', RefinesAt o db' a p' := by
  rw [Db.makeRoom] at hstep
  split at hstep
  · rename_i force hleader
    split_ifs at hstep with hroom himm hfiles
    · exact h.group (by rw [hleader]; rfl) hstep
    · obtain rfl := Option.some.inj hstep
      exact .inr (h.switchMemTable hleader (Option.not_isSome_iff_eq_none.mp himm))
  · cases hstep

theorem exists_group (h : RefinesAt o db a p) {progress : Progress} {updates : WriteBatch} {n : ℕ}
    (hleader : db.leader = .writing progress updates n) :
    ∃ g, p.inflight = [g] ∧ InHand updates n db.versions.lastSequence a.pending g := by
  have hholds := h.leader
  rw [hleader] at hholds
  exact hholds

theorem addRecord (h : RefinesAt o db a p) (hstep : db.addRecord o = some db') :
    a.logged = 0 ∧ ∃ n, 0 < n ∧ n ≤ a.pending.length ∧
      RefinesAt o db' { a with logged := n } p := by
  rw [Db.addRecord] at hstep
  split at hstep
  · rename_i updates n w ws hleader hdb
    obtain ⟨log, hlog, rfl⟩ := Option.map_eq_some_iff.mp hstep
    obtain ⟨g, hinflight, hg⟩ := h.exists_group hleader
    -- The leader is the first writer of its group.
    have hsync : w.sync = g.sync := by
      have hwriters := h.writers
      rw [hdb] at hwriters
      obtain ⟨write, rest, hfirst, -, hpending⟩ := List.forall₂_cons_left_iff.mp hwriters
      have hhead := hg.sync_eq
      rw [hpending] at hhead
      exact hfirst.sync_eq.trans (Option.some.inj hhead)
    refine ⟨by rw [h.logged, hleader]; rfl, n, hg.pos, hg.le_length, { h with
      inv := { h.inv with mem := ?_, log := ?_ }
      leader := ⟨g, hinflight, hg⟩
      logged := rfl }⟩
    · have hmem := h.inv.mem
      rw [hleader] at hmem
      exact hmem
    · have hold := h.inv.log
      rw [hleader] at hold
      have hold : LogHolds o db.log db.synced (p.mem ++ []) := hold
      rw [List.append_nil] at hold
      have hadd := hold.add hg.batch hlog
      rw [← hinflight, ← hsync] at hadd
      exact hadd
  · cases hstep

theorem insertInto (h : RefinesAt o db a p) (hstep : db.insertInto = some db') :
    RefinesAt o db' a p := by
  rw [Db.insertInto] at hstep
  split at hstep
  · rename_i updates n hleader
    obtain ⟨⟨status, mem⟩, hinsert, rfl⟩ := Option.map_eq_some_iff.mp hstep
    obtain ⟨g, hinflight, hg⟩ := h.exists_group hleader
    have hold : MemHolds db.mem (groupEntries (p.mem ++ [])) := by
      have hmem := h.inv.mem
      rw [hleader] at hmem
      exact hmem
    rw [List.append_nil] at hold
    have hrange : g.InRange := h.inv.inRange g (by simp [hinflight])
    have hgrow : (groupEntries p.mem ++ g.entries).Pairwise fun e f => e.seq < f.seq := by
      have hgrow := h.inv.grow
      rw [Places.visible, List.append_assoc, groupEntries_append, hinflight] at hgrow
      rw [← groupEntries_singleton, ← groupEntries_append]
      exact (List.pairwise_append.mp hgrow).2.1
    obtain ⟨m', hm', hmem'⟩ := hold.insertInto hg.batch hrange hgrow
    rw [hinsert] at hm'
    obtain ⟨-, rfl⟩ := Prod.mk.inj (Option.some.inj hm')
    rw [← groupEntries_singleton, ← hinflight] at hmem'
    refine { h with
      inv := { h.inv with mem := ?_, log := ?_ }
      leader := ⟨g, hinflight, hg⟩
      readers := ?_
      logged := by rw [h.logged, hleader]; rfl }
    · rw [← groupEntries_append] at hmem'
      exact hmem'
    · have hlog := h.inv.log
      rw [hleader] at hlog
      exact hlog
    · -- What is inserted is newer than what the readers may see.
      have hfun : Functional {e | e ∈ groupEntries p.mem} :=
        h.inv.functional_visible.mono fun e he => (Inv.mem_visible_iff p e).mpr (.inr (.inr he))
      refine h.readers.imp fun r read hr => ⟨hr.key_eq, hr.key_lt, hr.snapshot_le, ?_⟩
      rw [← hr.result_eq]
      cases hmem : r.mem with
      | some m => rw [Reader.result, Reader.result, hmem, Option.getD_some, Option.getD_some]
      | none =>
          have hget := hold.get_eq hmem' hfun
            (fun e he => hr.snapshot_le.trans_lt (h.inv.seq_gt e he)) hr.key_lt
            (hr.snapshot_le.trans h.inv.last_lt.le)
          rw [Reader.result, Reader.result, hmem, lookUp, lookUp, Option.getD_none, Option.getD_none,
            hget]
  · cases hstep

theorem finish (h : RefinesAt o db a p) (hstep : db.finish = some db') :
    0 < a.logged ∧ a.logged ≤ a.pending.length ∧ ∃ p', RefinesAt o db' { a with
      pending := a.pending.drop a.logged
      commits := a.commits ++ [Store.commitOf (a.pending.take a.logged)]
      logged := 0 } p' := by
  rw [Db.finish] at hstep
  split at hstep
  · rename_i updates n hleader
    obtain rfl := Option.some.inj hstep
    obtain ⟨g, hinflight, hbatch, hseq, hcommit, -, hpos, hle, hlast⟩ := h.exists_group hleader
    have hlogged : a.logged = n := by rw [h.logged, hleader]; rfl
    have hcount := hbatch.holds.count_eq
    have hvisible : (⟨p.flushed, p.imm, p.mem ++ p.inflight, [], p.bound⟩ : Places).visible =
        p.visible ++ p.inflight := by
      simp [Places.visible]
    rw [hlogged]
    refine ⟨hpos, hle, ⟨p.flushed, p.imm, p.mem ++ p.inflight, [], p.bound⟩, ?_⟩
    refine { h with
      inv := { h.inv with
        grow := ?_
        seq_le := ?_
        seq_gt := fun e he => absurd he List.not_mem_nil
        inRange := ?_
        last_lt := ?_
        mem := ?_
        log := ?_
        manifest_last := h.inv.manifest_last.trans (Nat.le_add_right _ _) }
      writers := List.forall₂_drop n h.writers
      leader := rfl
      compaction := fun c hc => ⟨(h.compaction c hc).1,
        (h.compaction c hc).2.trans (Nat.le_add_right _ _)⟩
      readers := ?_
      commits := ?_
      logged := rfl }
    · rw [hvisible, List.append_nil]
      exact h.inv.grow
    · intro e he
      rw [hvisible, groupEntries_append, List.mem_append] at he
      dsimp only
      rcases he with he | he
      · exact (h.inv.seq_le e he).trans (Nat.le_add_right _ _)
      · rw [hinflight, groupEntries_singleton] at he
        have := (seq_of_mem_opEntries he).2
        omega
    · rw [hvisible, List.append_nil]
      exact h.inv.inRange
    · dsimp only
      omega
    · have hmem := h.inv.mem
      rw [hleader] at hmem
      have hmem : MemHolds db.mem (groupEntries (p.mem ++ p.inflight)) := hmem
      rw [← List.append_nil (p.mem ++ p.inflight)] at hmem
      exact hmem
    · have hlog := h.inv.log
      rw [hleader] at hlog
      have hlog : LogHolds o db.log db.synced (p.mem ++ p.inflight) := hlog
      rw [← List.append_nil (p.mem ++ p.inflight)] at hlog
      exact hlog
    · exact h.readers.imp fun r read hr => ⟨hr.key_eq, hr.key_lt,
        hr.snapshot_le.trans (Nat.le_add_right _ _), hr.result_eq⟩
    · rw [hvisible, List.map_append, h.commits, hinflight, List.map_singleton, hcommit]
  · cases hstep

end RefinesAt

end Leveldb

end UnifyFramework
