import Mathlib.Algebra.Group.Nat.Defs
import Mathlib.Data.List.Perm.Basic
import Mathlib.Order.MinMax
import Mathlib.Order.Nat
import UnifyFramework.Text.Bytes
import UnifyFramework.Transition.Run

/-!
# Batches of downloads on iOS

`queueDownLoadAllFiles` makes an operation for every element of a list that has three parts and
starts them on a queue of their own. The operations of all calls complete in any order. What has
been downloaded is counted in `indexQueue`, which is never set back, and the end block of an
operation is called with `true` when the count meets `QueueCount`, the number of elements in the
list of the latest call. So the end block of a batch is called as it should be only when the
batch has no element that is skipped, is the only one with operations, and is followed by calls
with equally long lists only. Both counters are of type `int`, so all this is up to multiples of
`2 ^ 32`, and the batch has no more operations than that.
-/

namespace UnifyFramework

namespace Network

namespace QueueDownLoad

open Transition

/-- An `AFHTTPRequestOperation`, with the place of the operation it depends on. -/
structure Operation where
  stringUrl : String
  fileId : String
  path : String
  dependency : Option ℕ
  deriving DecidableEq

/-- The arguments of `queueDownLoadAllFiles`. -/
structure Call where
  address : List (List String)
  path : String
  hasBlock : Bool
  deriving DecidableEq

def getOperationWithUrl (stringUrl fileId path : String) : Operation :=
  ⟨stringUrl, fileId, path, none⟩

def addDependency (operation : Operation) (operationArray : List Operation) : List Operation :=
  match operationArray with
  | [] => [operation]
  | _ => operationArray ++ [{ operation with dependency := some (operationArray.length - 1) }]

def addElement (path : String) (operationArray : List Operation) (arr : List String) :
    List Operation :=
  match arr with
  | [fileFullPath, fileId, _] =>
      addDependency (getOperationWithUrl fileFullPath fileId path) operationArray
  | _ => operationArray

namespace Call

def operationArray (call : Call) : List Operation := call.address.foldl (addElement call.path) []

end Call

/-- A call with its queue. Of the operations that have left the queue, the files `written` have
succeeded. `told` has the arguments that the end block was called with. -/
structure Batch where
  call : Call
  pending : List Operation
  written : List (Operation × Bytes)
  failed : List Operation
  told : List Bool
  deriving DecidableEq

def Batch.new (call : Call) : Batch := ⟨call, call.operationArray, [], [], []⟩

structure State where
  indexQueue : BitVec 32
  queueCount : BitVec 32
  batches : List Batch
  deriving DecidableEq

inductive Event
  | queueDownLoadAllFiles (call : Call)
  | success (batch place : ℕ) (responseData : Bytes)
  | failure (batch place : ℕ)

def toldOnSuccess (call : Call) (indexQueue queueCount : BitVec 32) : List Bool :=
  if indexQueue = queueCount ∧ call.hasBlock then [true] else []

def toldOnFailure (call : Call) : List Bool := if call.hasBlock then [false] else []

namespace Batch

def succeed (batch : Batch) (place : ℕ) (operation : Operation) (responseData : Bytes)
    (indexQueue queueCount : BitVec 32) : Batch :=
  { batch with
    pending := batch.pending.eraseIdx place
    written := batch.written ++ [(operation, responseData)]
    told := batch.told ++ toldOnSuccess batch.call indexQueue queueCount }

def fail (batch : Batch) (place : ℕ) (operation : Operation) : Batch :=
  { batch with
    pending := batch.pending.eraseIdx place
    failed := batch.failed ++ [operation]
    told := batch.told ++ toldOnFailure batch.call }

end Batch

namespace State

def new : State := ⟨0, 0, []⟩

def queueDownLoadAllFiles (s : State) (call : Call) : State :=
  { s with
    queueCount := .ofNat 32 call.address.length
    batches := s.batches ++ [Batch.new call] }

/-- It is `none` where there is no such operation. -/
def step (s : State) : Event → Option State
  | .queueDownLoadAllFiles call => some (s.queueDownLoadAllFiles call)
  | .success b place responseData => do
      let batch ← s.batches[b]?
      let operation ← batch.pending[place]?
      let indexQueue := s.indexQueue + 1
      some { s with
        indexQueue := indexQueue
        batches := s.batches.set b
          (batch.succeed place operation responseData indexQueue s.queueCount) }
  | .failure b place => do
      let batch ← s.batches[b]?
      let operation ← batch.pending[place]?
      some { s with batches := s.batches.set b (batch.fail place operation) }

def calls (s : State) : List Call := s.batches.map Batch.call

end State

/-- The end block has been called with `true` once if all operations of the batch have succeeded,
and not at all as long as one is pending or if one has failed. -/
def Batch.Conforms (batch : Batch) : Prop :=
  batch.told.count true = if batch.pending = [] ∧ batch.failed = [] then 1 else 0

def Call.Awaited (call : Call) : Prop := call.hasBlock = true ∧ call.operationArray ≠ []

def State.Conforms (s : State) : Prop :=
  ∀ batch ∈ s.batches, batch.call.Awaited → batch.Conforms

instance (s : State) : Decidable s.Conforms :=
  inferInstanceAs (Decidable (∀ batch ∈ s.batches, _ ∧ _ → _ = _))

def Sound (calls : List Call) : Prop :=
  ∀ (i : ℕ) (call : Call), calls[i]? = some call → call.Awaited →
    call.operationArray.length ≤ 2 ^ 32 ∧
    (∀ (j : ℕ) (later : Call), i ≤ j → calls[j]? = some later →
      BitVec.ofNat 32 later.address.length = .ofNat 32 call.operationArray.length) ∧
    ∀ (k : ℕ) (other : Call), k ≠ i → calls[k]? = some other → other.operationArray = []

instance (call : Call) : Decidable call.Awaited := inferInstanceAs (Decidable (_ ∧ _))

theorem sound_iff_forall_fin (calls : List Call) :
    Sound calls ↔ ∀ i : Fin calls.length, calls[i].Awaited →
      calls[i].operationArray.length ≤ 2 ^ 32 ∧
      (∀ j : Fin calls.length, i ≤ j →
        BitVec.ofNat 32 calls[j].address.length = .ofNat 32 calls[i].operationArray.length) ∧
      ∀ k : Fin calls.length, k ≠ i → calls[k].operationArray = [] := by
  constructor
  · intro h i hawaited
    obtain ⟨hrange, hlater, hother⟩ := h i calls[i] (List.getElem?_eq_getElem i.isLt) hawaited
    exact ⟨hrange, fun j hij => hlater j _ hij (List.getElem?_eq_getElem j.isLt),
      fun k hne => hother k _ (Fin.val_ne_of_ne hne) (List.getElem?_eq_getElem k.isLt)⟩
  · intro h i call hi hawaited
    obtain ⟨hlt, rfl⟩ := List.getElem?_eq_some_iff.mp hi
    obtain ⟨hrange, hlater, hother⟩ := h ⟨i, hlt⟩ hawaited
    refine ⟨hrange, fun j later hij hj => ?_, fun k other hne hk => ?_⟩
    · obtain ⟨hjlt, rfl⟩ := List.getElem?_eq_some_iff.mp hj
      exact hlater ⟨j, hjlt⟩ hij
    · obtain ⟨hklt, rfl⟩ := List.getElem?_eq_some_iff.mp hk
      exact hother ⟨k, hklt⟩ (Fin.ne_of_val_ne hne)

instance (calls : List Call) : Decidable (Sound calls) :=
  decidable_of_iff _ (sound_iff_forall_fin calls).symm

theorem Sound.of_append {calls more : List Call} (h : Sound (calls ++ more)) : Sound calls := by
  have hget : ∀ {i : ℕ} {call : Call}, calls[i]? = some call → (calls ++ more)[i]? = some call := by
    intro i call hi
    rw [List.getElem?_append_left (List.getElem?_eq_some_iff.mp hi).1, hi]
  intro i call hi hawaited
  obtain ⟨hrange, hlater, hother⟩ := h i call (hget hi) hawaited
  exact ⟨hrange, fun j later hij hj => hlater j later hij (hget hj),
    fun k other hne hk => hother k other hne (hget hk)⟩

/-- Numbers from one to a number that are the same as that number for an `int`. -/
theorem ofNat_eq_iff_of_le {m n : ℕ} (hpos : 0 < m) (hle : m ≤ n) (hn : n ≤ 2 ^ 32) :
    BitVec.ofNat 32 m = .ofNat 32 n ↔ m = n := by
  refine ⟨fun h => ?_, congrArg _⟩
  have hmod := congrArg BitVec.toNat h
  rw [BitVec.toNat_ofNat, BitVec.toNat_ofNat] at hmod
  omega

namespace State

theorem step_success_eq_some_iff {s s' : State} {b place : ℕ} {responseData : Bytes} :
    s.step (.success b place responseData) = some s' ↔
      ∃ batch operation, s.batches[b]? = some batch ∧ batch.pending[place]? = some operation ∧
        s' = ⟨s.indexQueue + 1, s.queueCount, s.batches.set b
          (batch.succeed place operation responseData (s.indexQueue + 1) s.queueCount)⟩ := by
  simp only [step, Option.bind_eq_bind, Option.bind_eq_some_iff, Option.some.injEq]
  grind

theorem step_failure_eq_some_iff {s s' : State} {b place : ℕ} :
    s.step (.failure b place) = some s' ↔
      ∃ batch operation, s.batches[b]? = some batch ∧ batch.pending[place]? = some operation ∧
        s' = ⟨s.indexQueue, s.queueCount, s.batches.set b (batch.fail place operation)⟩ := by
  simp only [step, Option.bind_eq_bind, Option.bind_eq_some_iff, Option.some.injEq]
  grind

theorem map_call_set {batches : List Batch} {b : ℕ} {batch batch' : Batch}
    (hbatch : batches[b]? = some batch) (hcall : batch'.call = batch.call) :
    (batches.set b batch').map Batch.call = batches.map Batch.call := by
  obtain ⟨hlt, rfl⟩ := List.getElem?_eq_some_iff.mp hbatch
  rw [List.map_set, hcall, ← List.map_set, List.set_getElem_self]

theorem calls_success {s s' : State} {b place : ℕ} {responseData : Bytes}
    (hstep : s.step (.success b place responseData) = some s') : s'.calls = s.calls := by
  obtain ⟨batch, operation, hbatch, -, rfl⟩ := step_success_eq_some_iff.mp hstep
  exact map_call_set hbatch rfl

theorem calls_failure {s s' : State} {b place : ℕ}
    (hstep : s.step (.failure b place) = some s') : s'.calls = s.calls := by
  obtain ⟨batch, operation, hbatch, -, rfl⟩ := step_failure_eq_some_iff.mp hstep
  exact map_call_set hbatch rfl

theorem calls_queueDownLoadAllFiles (s : State) (call : Call) :
    (s.queueDownLoadAllFiles call).calls = s.calls ++ [call] := by
  rw [calls, queueDownLoadAllFiles, List.map_append]
  rfl

end State

namespace Batch

def Accounted (batch : Batch) : Prop :=
  (batch.written.map Prod.fst ++ batch.failed ++ batch.pending).Perm batch.call.operationArray

theorem accounted_new (call : Call) : (Batch.new call).Accounted := .rfl

theorem perm_eraseIdx {batch : Batch} {place : ℕ} {operation : Operation}
    (hplace : batch.pending[place]? = some operation) :
    batch.pending.Perm (operation :: batch.pending.eraseIdx place) := by
  obtain ⟨hlt, rfl⟩ := List.getElem?_eq_some_iff.mp hplace
  exact (List.getElem_cons_eraseIdx_perm hlt).symm

variable {batch : Batch} {place : ℕ} {operation : Operation}

theorem Accounted.succeed (h : batch.Accounted) (hplace : batch.pending[place]? = some operation)
    (responseData : Bytes) (indexQueue queueCount : BitVec 32) :
    (batch.succeed place operation responseData indexQueue queueCount).Accounted := by
  refine List.Perm.trans ?_ h
  simp only [Batch.succeed, List.map_append, List.map_cons, List.map_nil, List.append_assoc,
    List.singleton_append]
  have hmove : (operation :: (batch.failed ++ batch.pending.eraseIdx place)).Perm
      (batch.failed ++ operation :: batch.pending.eraseIdx place) := List.perm_middle.symm
  exact (hmove.trans ((perm_eraseIdx hplace).symm.append_left _)).append_left _

theorem Accounted.fail (h : batch.Accounted) (hplace : batch.pending[place]? = some operation) :
    (batch.fail place operation).Accounted := by
  refine List.Perm.trans ?_ h
  simp only [Batch.fail, List.append_assoc, List.singleton_append]
  exact ((perm_eraseIdx hplace).symm.append_left _).append_left _

theorem Accounted.length_eq (h : batch.Accounted) :
    batch.written.length + batch.failed.length + batch.pending.length =
      batch.call.operationArray.length := by
  have hlen := List.Perm.length_eq h
  rwa [List.length_append, List.length_append, List.length_map] at hlen

theorem length_eraseIdx_pending (hplace : batch.pending[place]? = some operation) :
    (batch.pending.eraseIdx place).length + 1 = batch.pending.length :=
  (perm_eraseIdx hplace).length_eq.symm

theorem pending_ne_nil (hplace : batch.pending[place]? = some operation) : batch.pending ≠ [] :=
  List.ne_nil_of_mem (List.mem_of_getElem? hplace)

/-- With an operation still to complete, the end block has not been called with `true`. -/
theorem Conforms.count_of_pending (h : batch.Conforms)
    (hplace : batch.pending[place]? = some operation) : batch.told.count true = 0 := by
  rw [h, if_neg]
  rintro ⟨hnil, -⟩
  exact pending_ne_nil hplace hnil

/-- When the counters are those of the batch, a success is reported as it should be. -/
theorem Conforms.succeed (hconf : batch.Conforms) (hacc : batch.Accounted)
    (hrange : batch.call.operationArray.length ≤ 2 ^ 32)
    (hblock : batch.call.hasBlock = true) (hplace : batch.pending[place]? = some operation)
    (responseData : Bytes) :
    (batch.succeed place operation responseData (.ofNat 32 (batch.written.length + 1))
      (.ofNat 32 batch.call.operationArray.length)).Conforms := by
  have hlen := hacc.length_eq
  have herase := length_eraseIdx_pending hplace
  have hlast : BitVec.ofNat 32 (batch.written.length + 1) =
      .ofNat 32 batch.call.operationArray.length ↔
        batch.pending.eraseIdx place = [] ∧ batch.failed = [] := by
    rw [ofNat_eq_iff_of_le (Nat.succ_pos _) (by omega) hrange, ← List.length_eq_zero_iff,
      ← List.length_eq_zero_iff]
    omega
  simp only [Conforms, Batch.succeed, toldOnSuccess, hblock, and_true, List.count_append,
    hconf.count_of_pending hplace, hlast, Nat.zero_add]
  split_ifs <;> rfl

theorem Conforms.fail (hconf : batch.Conforms) (hplace : batch.pending[place]? = some operation) :
    (batch.fail place operation).Conforms := by
  have hfalse : (toldOnFailure batch.call).count true = 0 := by
    rw [toldOnFailure]
    split_ifs <;> rfl
  simp [Conforms, Batch.fail, List.count_append, hconf.count_of_pending hplace, hfalse]

end Batch

namespace State

/-- What holds in every state: the operations are accounted for, and nothing is counted before
there is an operation. -/
structure Counted (s : State) : Prop where
  accounted : ∀ batch ∈ s.batches, batch.Accounted
  operations : s.indexQueue ≠ 0 → ∃ call ∈ s.calls, call.operationArray ≠ []

theorem counted_new : new.Counted := ⟨fun _ h => absurd h List.not_mem_nil, fun h => absurd rfl h⟩

variable {s s' : State} {b : ℕ} {batch batch' : Batch}

/-- A completion puts a batch in the place of the one it belongs to. -/
theorem accounted_set (h : s.Counted) (hacc : batch'.Accounted) :
    ∀ x ∈ s.batches.set b batch', x.Accounted := by
  intro x hx
  rcases List.mem_or_eq_of_mem_set hx with hmem | rfl
  · exact h.accounted x hmem
  · exact hacc

theorem Counted.operationArray_ne_nil (h : s.Counted) (hbatch : s.batches[b]? = some batch)
    {place : ℕ} {operation : Operation} (hplace : batch.pending[place]? = some operation) :
    batch.call.operationArray ≠ [] := by
  have hmem : operation ∈ batch.written.map Prod.fst ++ batch.failed ++ batch.pending :=
    List.mem_append_right _ (List.mem_of_getElem? hplace)
  have hacc := h.accounted batch (List.mem_of_getElem? hbatch)
  exact List.ne_nil_of_mem ((List.Perm.mem_iff hacc).mp hmem)

theorem Counted.step (h : s.Counted) (e : Event) (hstep : s.step e = some s') : s'.Counted := by
  cases e with
  | queueDownLoadAllFiles call =>
      obtain rfl := Option.some.inj hstep
      refine ⟨?_, fun hindex => ?_⟩
      · intro x hx
        rcases List.mem_append.mp hx with hmem | hmem
        · exact h.accounted x hmem
        · rw [List.mem_singleton.mp hmem]
          exact Batch.accounted_new call
      · obtain ⟨other, hother, hne⟩ := h.operations hindex
        refine ⟨other, ?_, hne⟩
        rw [calls_queueDownLoadAllFiles]
        exact List.mem_append_left _ hother
  | success b place responseData =>
      obtain ⟨batch, operation, hbatch, hplace, rfl⟩ := step_success_eq_some_iff.mp hstep
      have hmem := List.mem_of_getElem? hbatch
      refine ⟨accounted_set h ((h.accounted batch hmem).succeed hplace _ _ _), fun _ => ?_⟩
      rw [calls_success hstep]
      exact ⟨batch.call, List.mem_map_of_mem hmem, h.operationArray_ne_nil hbatch hplace⟩
  | failure b place =>
      obtain ⟨batch, operation, hbatch, hplace, rfl⟩ := step_failure_eq_some_iff.mp hstep
      have hmem := List.mem_of_getElem? hbatch
      refine ⟨accounted_set h ((h.accounted batch hmem).fail hplace), fun hindex => ?_⟩
      rw [calls_failure hstep]
      exact h.operations hindex

structure Tracks (s : State) (batch : Batch) : Prop where
  indexQueue : s.indexQueue = .ofNat 32 batch.written.length
  queueCount : s.queueCount = .ofNat 32 batch.call.operationArray.length
  conforms : batch.Conforms

theorem getElem?_calls (hbatch : s.batches[b]? = some batch) : s.calls[b]? = some batch.call := by
  rw [calls, List.getElem?_map, hbatch, Option.map_some]

/-- In a sound list, an operation can complete only in the batch that is awaited. -/
theorem eq_of_mem_set (hsound : Sound s.calls) (h : s.Counted)
    (hbatch : s.batches[b]? = some batch) {place : ℕ} {operation : Operation}
    (hplace : batch.pending[place]? = some operation) {x : Batch}
    (hx : x ∈ s.batches.set b batch') (hawaited : x.call.Awaited) : x = batch' := by
  obtain ⟨j, hj⟩ := List.mem_iff_getElem?.mp hx
  rw [List.getElem?_set] at hj
  split_ifs at hj with hbj hlt
  · exact (Option.some.inj hj).symm
  · have hnil := (hsound j x.call (getElem?_calls hj) hawaited).2.2 b batch.call hbj
      (getElem?_calls hbatch)
    exact absurd hnil (h.operationArray_ne_nil hbatch hplace)

theorem indexQueue_eq_zero (h : s.Counted) {call : Call} (hsound : Sound (s.calls ++ [call]))
    (hawaited : call.Awaited) : s.indexQueue = 0 := by
  by_contra hindex
  obtain ⟨other, hother, hne⟩ := h.operations hindex
  obtain ⟨k, hk⟩ := List.mem_iff_getElem?.mp hother
  have hlt := (List.getElem?_eq_some_iff.mp hk).1
  refine hne ((hsound s.calls.length call List.getElem?_concat_length hawaited).2.2 k other ?_ ?_)
  · exact hlt.ne
  · rw [List.getElem?_append_left hlt, hk]

theorem tracks_queueDownLoadAllFiles (h : s.Counted) {call : Call}
    (hsound : Sound (s.calls ++ [call]))
    (htracks : ∀ x ∈ s.batches, x.call.Awaited → s.Tracks x) :
    ∀ x ∈ (s.queueDownLoadAllFiles call).batches, x.call.Awaited →
      (s.queueDownLoadAllFiles call).Tracks x := by
  intro x hx hawaited
  rcases List.mem_append.mp hx with hmem | hmem
  · obtain ⟨hindex, -, hconf⟩ := htracks x hmem hawaited
    refine ⟨hindex, ?_, hconf⟩
    obtain ⟨j, hj⟩ := List.mem_iff_getElem?.mp hmem
    have hlt := (List.getElem?_eq_some_iff.mp (getElem?_calls hj)).1
    refine (hsound j x.call ?_ hawaited).2.1 s.calls.length call hlt.le List.getElem?_concat_length
    rw [List.getElem?_append_left hlt, getElem?_calls hj]
  · obtain rfl := List.mem_singleton.mp hmem
    have hzero : s.indexQueue = 0 := indexQueue_eq_zero h hsound hawaited
    refine ⟨hzero, ?_, ?_⟩
    · exact (hsound s.calls.length call List.getElem?_concat_length hawaited).2.1 _ call le_rfl
        List.getElem?_concat_length
    · rw [Batch.Conforms, if_neg fun hnil => hawaited.2 hnil.1]
      rfl

/-- With a sound list of calls, the counters stay those of the batch that is awaited. -/
theorem Counted.tracks_step (h : s.Counted) (e : Event) (hstep : s.step e = some s')
    (htracks : Sound s.calls → ∀ x ∈ s.batches, x.call.Awaited → s.Tracks x)
    (hsound : Sound s'.calls) : ∀ x ∈ s'.batches, x.call.Awaited → s'.Tracks x := by
  cases e with
  | queueDownLoadAllFiles call =>
      obtain rfl := Option.some.inj hstep
      rw [calls_queueDownLoadAllFiles] at hsound
      exact tracks_queueDownLoadAllFiles h hsound (htracks hsound.of_append)
  | success b place responseData =>
      rw [calls_success hstep] at hsound
      obtain ⟨batch, operation, hbatch, hplace, rfl⟩ := step_success_eq_some_iff.mp hstep
      have hmem := List.mem_of_getElem? hbatch
      intro x hx hawaited
      obtain rfl := eq_of_mem_set hsound h hbatch hplace hx hawaited
      obtain ⟨hindex, hcount, hconf⟩ := htracks hsound batch hmem hawaited
      have hnext : s.indexQueue + 1 = .ofNat 32 (batch.written.length + 1) := by
        rw [hindex, BitVec.ofNat_add]
        rfl
      refine ⟨?_, hcount, ?_⟩
      · rw [hnext, Batch.succeed, List.length_append]
        rfl
      · obtain ⟨j, hj⟩ := List.mem_iff_getElem?.mp hmem
        rw [hnext, hcount]
        exact hconf.succeed (h.accounted batch hmem) (hsound j _ (getElem?_calls hj) hawaited).1
          hawaited.1 hplace responseData
  | failure b place =>
      rw [calls_failure hstep] at hsound
      obtain ⟨batch, operation, hbatch, hplace, rfl⟩ := step_failure_eq_some_iff.mp hstep
      intro x hx hawaited
      obtain rfl := eq_of_mem_set hsound h hbatch hplace hx hawaited
      obtain ⟨hindex, hcount, hconf⟩ :=
        htracks hsound batch (List.mem_of_getElem? hbatch) hawaited
      exact ⟨hindex, hcount, hconf.fail hplace⟩

def Kept (s : State) : Prop :=
  s.Counted ∧ (Sound s.calls → ∀ x ∈ s.batches, x.call.Awaited → s.Tracks x)

theorem kept_of_run {es : List Event} (hrun : run step new es = some s) : s.Kept :=
  run_invariant (I := Kept)
    (fun _ e _ h hstep => ⟨h.1.step e hstep, h.1.tracks_step e hstep h.2⟩)
    ⟨counted_new, fun _ _ hx => absurd hx List.not_mem_nil⟩ hrun

/-- Every run with a sound list of calls reports its batches as it should. -/
theorem conforms_of_sound {es : List Event} (hrun : run step new es = some s)
    (hsound : Sound s.calls) : s.Conforms :=
  fun x hx hawaited => ((kept_of_run hrun).2 hsound x hx hawaited).conforms

theorem run_calls (s : State) (calls : List Call) (last : Call) :
    run step s ((calls ++ [last]).map .queueDownLoadAllFiles) =
      some ⟨s.indexQueue, .ofNat 32 last.address.length, s.batches ++ (calls ++ [last]).map Batch.new⟩ := by
  induction calls generalizing s with
  | nil => rfl
  | cons call calls ih =>
      have hrest := ih (s.queueDownLoadAllFiles call)
      rw [List.cons_append, List.map_cons, run, step, Option.bind_some, hrest]
      simp [queueDownLoadAllFiles]

/-- `s'` is `s` after `m` successes in the batch `b`, and `batch'` is what becomes of `batch`. -/
structure Succeeds (s s' : State) (b m : ℕ) (batch batch' : Batch) : Prop where
  indexQueue : s'.indexQueue = s.indexQueue + .ofNat 32 m
  queueCount : s'.queueCount = s.queueCount
  calls : s'.calls = s.calls
  others : ∀ j, j ≠ b → s'.batches[j]? = s.batches[j]?
  getElem? : s'.batches[b]? = some batch'
  call : batch'.call = batch.call
  pending : batch'.pending = batch.pending.drop m
  failed : batch'.failed = batch.failed

theorem Succeeds.trans {t u : State} {m n : ℕ} {x y z : Batch} (h : s.Succeeds t b m x y)
    (h' : t.Succeeds u b n y z) : s.Succeeds u b (m + n) x z where
  indexQueue := by rw [h'.indexQueue, h.indexQueue, BitVec.add_assoc, BitVec.ofNat_add]
  queueCount := h'.queueCount.trans h.queueCount
  calls := h'.calls.trans h.calls
  others j hj := (h'.others j hj).trans (h.others j hj)
  getElem? := h'.getElem?
  call := h'.call.trans h.call
  pending := by rw [h'.pending, h.pending, List.drop_drop]
  failed := h'.failed.trans h.failed

theorem exists_success (hbatch : s.batches[b]? = some batch) {operation : Operation}
    {rest : List Operation} (hpending : batch.pending = operation :: rest) :
    ∃ s', s.step (.success b 0 []) = some s' ∧
      s.Succeeds s' b 1 batch
        (batch.succeed 0 operation [] (s.indexQueue + 1) s.queueCount) := by
  have hplace : batch.pending[0]? = some operation := by rw [hpending, List.getElem?_cons_zero]
  obtain ⟨s', hs'⟩ : ∃ s', s.step (.success b 0 []) = some s' :=
    ⟨_, step_success_eq_some_iff.mpr ⟨batch, operation, hbatch, hplace, rfl⟩⟩
  refine ⟨s', hs', ?_⟩
  have hcalls := calls_success hs'
  obtain ⟨x, y, hx, hy, rfl⟩ := step_success_eq_some_iff.mp hs'
  obtain rfl := Option.some.inj (hbatch.symm.trans hx)
  obtain rfl := Option.some.inj (hplace.symm.trans hy)
  have hlt := (List.getElem?_eq_some_iff.mp hbatch).1
  refine ⟨rfl, rfl, hcalls, ?_, List.getElem?_set_self hlt, rfl, ?_, rfl⟩
  · exact fun j hj => List.getElem?_set_ne hj.symm
  · simp [Batch.succeed, hpending]

theorem exists_successes (hbatch : s.batches[b]? = some batch) {m : ℕ}
    (hm : m ≤ batch.pending.length) :
    ∃ es s' batch', run step s es = some s' ∧ s.Succeeds s' b m batch batch' := by
  induction m with
  | zero =>
      exact ⟨[], s, batch, rfl, (BitVec.add_zero _).symm, rfl, rfl, fun _ _ => rfl, hbatch, rfl, rfl,
        rfl⟩
  | succ m ih =>
      obtain ⟨es, t, middle, hrun, ht⟩ := ih (Nat.le_of_succ_le hm)
      have hpending : middle.pending = batch.pending[m] :: batch.pending.drop (m + 1) := by
        rw [ht.pending, List.drop_eq_getElem_cons hm]
      obtain ⟨s', hstep, hs'⟩ := exists_success ht.getElem? hpending
      exact ⟨es ++ [.success b 0 []], s', _, run_concat hrun hstep, ht.trans hs'⟩

/-- When an operation of a batch succeeds and the batch conforms before and after, the counters meet
exactly if it is the last one. -/
theorem queueCount_eq_iff {operation : Operation} {rest : List Operation}
    (hpending : batch.pending = operation :: rest) (hfailed : batch.failed = [])
    (hblock : batch.call.hasBlock = true) (hbefore : batch.Conforms)
    {indexQueue queueCount : BitVec 32}
    (hafter : (batch.succeed 0 operation [] indexQueue queueCount).Conforms) :
    indexQueue = queueCount ↔ rest = [] := by
  have hplace : batch.pending[0]? = some operation := by rw [hpending, List.getElem?_cons_zero]
  have hzero := hbefore.count_of_pending hplace
  simp only [Batch.Conforms, Batch.succeed, toldOnSuccess, hpending, hfailed, hblock, and_true,
    List.count_append, hzero, List.eraseIdx_cons_zero] at hafter
  by_cases hmeet : indexQueue = queueCount <;> by_cases hrest : rest = [] <;> simp_all

/-- Where all states conform, and operations of a new batch succeed one after the other, the
counters meet at the last one and at no other. -/
theorem indexQueue_add_eq_iff {calls : List Call}
    (hconf : ∀ es s, run step new es = some s → s.calls <+: calls → s.Conforms)
    {es : List Event} (hrun : run step new es = some s) (hcalls : s.calls <+: calls) {call : Call}
    (hbatch : s.batches[b]? = some (Batch.new call)) (hawaited : call.Awaited) {m : ℕ}
    (hm : m < call.operationArray.length) :
    s.indexQueue + .ofNat 32 (m + 1) = s.queueCount ↔ m + 1 = call.operationArray.length := by
  have hpendingLe : m ≤ (Batch.new call).pending.length := hm.le
  obtain ⟨fs, t, last, hrunt, ht⟩ := exists_successes hbatch hpendingLe
  have hpending : last.pending = call.operationArray[m] :: call.operationArray.drop (m + 1) := by
    rw [ht.pending]
    exact List.drop_eq_getElem_cons hm
  obtain ⟨t', hstep, ht'⟩ := exists_success ht.getElem? hpending
  have hreach : run step new (es ++ fs) = some t := by
    rw [run_append, hrun, Option.bind_some, hrunt]
  have hbefore : last.Conforms := by
    refine hconf _ t hreach ?_ last (List.mem_of_getElem? ht.getElem?) ?_
    · rwa [ht.calls]
    · rwa [ht.call]
  have hafter := by
    refine hconf _ t' (run_concat hreach hstep) ?_ _ (List.mem_of_getElem? ht'.getElem?) ?_
    · rwa [ht'.calls, ht.calls]
    · rwa [ht'.call, ht.call]
  have hmeet := queueCount_eq_iff hpending ht.failed (ht.call ▸ hawaited.1) hbefore hafter
  rw [ht.indexQueue, ht.queueCount, BitVec.add_assoc, List.drop_eq_nil_iff] at hmeet
  rw [BitVec.ofNat_add]
  exact hmeet.trans ⟨fun h => by omega, fun h => h.ge⟩

theorem indexQueue_add_length {calls : List Call}
    (hconf : ∀ es s, run step new es = some s → s.calls <+: calls → s.Conforms)
    {es : List Event} (hrun : run step new es = some s) (hcalls : s.calls <+: calls) {call : Call}
    (hbatch : s.batches[b]? = some (Batch.new call)) (hawaited : call.Awaited) :
    s.indexQueue + .ofNat 32 call.operationArray.length = s.queueCount := by
  obtain ⟨n, hn⟩ : ∃ n, call.operationArray.length = n + 1 :=
    Nat.exists_eq_succ_of_ne_zero fun h => hawaited.2 (List.length_eq_zero_iff.mp h)
  rw [hn]
  exact (indexQueue_add_eq_iff hconf hrun hcalls hbatch hawaited (by omega)).mpr hn.symm

theorem exists_calls {calls : List Call} {j : ℕ} {later : Call} (hj : calls[j]? = some later) :
    ∃ es s, run step new es = some s ∧ s.indexQueue = 0 ∧
      s.queueCount = .ofNat 32 later.address.length ∧ s.calls <+: calls ∧ ∀ i call, i ≤ j → calls[i]? = some call →
        s.batches[i]? = some (Batch.new call) := by
  have htake : calls.take j ++ [later] = calls.take (j + 1) := by
    rw [List.take_add_one, hj]
    rfl
  refine ⟨_, _, run_calls new (calls.take j) later, rfl, rfl, ?_, ?_⟩
  · rw [State.calls, htake]
    simp [new, Batch.new, Function.comp_def, List.take_prefix]
  · intro i call hij hi
    rw [htake, new, List.nil_append, List.getElem?_map, List.getElem?_take_of_lt (by omega), hi]
    rfl

/-- For all lists of calls: every run that makes these calls, with completions in between in any
order, calls the end blocks as it should, exactly when the list is sound. -/
theorem downloads_conform_iff (calls : List Call) :
    (∀ es s, run step new es = some s → s.calls <+: calls → s.Conforms) ↔ Sound calls := by
  constructor
  · intro hconf i call hi hawaited
    refine ⟨?_, fun j later hij hj => ?_, fun k other hki hk => ?_⟩
    · obtain ⟨es, s, hrun, -, -, hcalls, hnew⟩ := exists_calls hi
      have hbatch := hnew i call le_rfl hi
      have hmeet := indexQueue_add_length hconf hrun hcalls hbatch hawaited
      by_contra hrange
      -- the counters have already met when `2 ^ 32` operations are left
      obtain ⟨m, hm⟩ : ∃ m, call.operationArray.length = m + 1 + 2 ^ 32 :=
        ⟨call.operationArray.length - 2 ^ 32 - 1, by omega⟩
      have hwrap : BitVec.ofNat 32 (m + 1) = .ofNat 32 call.operationArray.length := by
        have hzero : BitVec.ofNat 32 (2 ^ 32) = 0#32 := by decide
        rw [hm, BitVec.ofNat_add _ (2 ^ 32), hzero, BitVec.add_zero]
      have hearly := (indexQueue_add_eq_iff hconf hrun hcalls hbatch hawaited (by omega)).mp
        (hwrap ▸ hmeet)
      omega
    · obtain ⟨es, s, hrun, hindex, hcount, hcalls, hnew⟩ := exists_calls hj
      have hmeet := indexQueue_add_length hconf hrun hcalls (hnew i call hij hi) hawaited
      rw [hindex, hcount] at hmeet
      exact ((BitVec.zero_add _).symm.trans hmeet).symm
    · -- one operation of the other batch succeeds before those of the batch
      obtain ⟨later, hlater⟩ : ∃ later, calls[max i k]? = some later := by
        rcases max_choice i k with h | h
        · exact ⟨call, by rw [h, hi]⟩
        · exact ⟨other, by rw [h, hk]⟩
      obtain ⟨es, s, hrun, -, -, hcalls, hnew⟩ := exists_calls hlater
      have hbatch := hnew i call (le_max_left i k) hi
      have hmeet := indexQueue_add_length hconf hrun hcalls hbatch hawaited
      by_contra hne
      obtain ⟨operation, rest, hpending⟩ := List.exists_cons_of_ne_nil hne
      obtain ⟨s', hstep, hs'⟩ := exists_success (hnew k other (le_max_right i k) hk) hpending
      have hmeet' := indexQueue_add_length hconf (run_concat hrun hstep) (hs'.calls ▸ hcalls)
        ((hs'.others i hki.symm).trans hbatch) hawaited
      rw [hs'.indexQueue, hs'.queueCount, ← hmeet] at hmeet'
      bv_omega
  · rintro hsound es s hrun ⟨more, rfl⟩
    exact conforms_of_sound hrun hsound.of_append

def sampleCall (parts : List ℕ) : Call := ⟨parts.map fun n => List.replicate n "a", "", true⟩

/-- A second batch is never reported, the first one is reported too early when a shorter batch
follows before its operations complete, and a batch with an element that is skipped is never
reported. -/
theorem not_conforms_second_overlapping_skipped :
    (∃ s, run step new [.queueDownLoadAllFiles (sampleCall [3]), .success 0 0 [],
        .queueDownLoadAllFiles (sampleCall [3]), .success 1 0 []] = some s ∧ ¬ s.Conforms) ∧
    (∃ s, run step new [.queueDownLoadAllFiles (sampleCall [3, 3]),
        .queueDownLoadAllFiles (sampleCall [3]), .success 0 0 [], .failure 0 0] = some s ∧
      ¬ s.Conforms) ∧
    ∃ s, run step new [.queueDownLoadAllFiles (sampleCall [3, 2]), .success 0 0 []] = some s ∧
      ¬ s.Conforms :=
  ⟨⟨_, rfl, by decide⟩, ⟨_, rfl, by decide⟩, _, rfl, by decide⟩

/-- A batch of two files, between two calls in which every element is skipped. -/
theorem conforms_onlyBatch :
    Sound [sampleCall [2], sampleCall [3, 3], sampleCall [1, 4]] ∧
    ∀ es s, run step new es = some s →
      s.calls <+: [sampleCall [2], sampleCall [3, 3], sampleCall [1, 4]] → s.Conforms :=
  have hsound : Sound [sampleCall [2], sampleCall [3, 3], sampleCall [1, 4]] := by decide
  ⟨hsound, (downloads_conform_iff _).mpr hsound⟩

end State

end QueueDownLoad

end Network

end UnifyFramework
