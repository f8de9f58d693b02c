import UnifyFramework.Leveldb.Db
import UnifyFramework.Storage.StorageUtils

/-!
# What the database is for

A store of byte strings takes writes one after the other. Some of the writes that wait are logged,
and then become one commit; the commits, in their order, make up the contents. A read gets the value
its key has when the read begins. A crash may take commits with it, but always whole ones and none
that a writer wanted to be synced; and it may complete the commit that was logged.
-/

namespace UnifyFramework

namespace Leveldb

open Versioned

def Op.applyTo (levelDb : Storage.LevelDb) : Op → Storage.LevelDb
  | .put key value => levelDb.insert key value
  | .delete key => levelDb.erase key

structure Write where
  ops : Option (List Op)
  sync : Bool

structure Commit where
  ops : List Op
  sync : Bool
deriving DecidableEq

/-- The writes that wait, the commits, the reads under way with the values they will get, and how
many of the writes are logged. -/
structure Store where
  pending : List Write
  commits : List Commit
  reads : List (Slice × Option Slice)
  logged : ℕ

/-- The steps that the users of the database do not notice. -/
def Event.isInternal : Event → Bool
  | .write _ _ | .finish | .beginRead _ | .endRead _ | .crash _ => false
  | _ => true

namespace Store

def new : Store := ⟨[], [], [], 0⟩

def replay (commits : List Commit) : Storage.LevelDb :=
  (commits.flatMap Commit.ops).foldl Op.applyTo ∅

def contents (s : Store) : Storage.LevelDb := replay s.commits

def opsOf (writes : List Write) : List Op := writes.flatMap fun w => w.ops.getD []

def commitOf (writes : List Write) : Commit := ⟨opsOf writes, writes.any Write.sync⟩

def underWay (s : Store) : List Commit :=
  if s.logged = 0 then [] else [commitOf (s.pending.take s.logged)]

inductive Step : Event → Store → Store → Prop
  | write {s : Store} (ops : Option (List Op)) (sync : Bool) :
      Step (.write ops sync) s { s with pending := s.pending ++ [⟨ops, sync⟩] }
  | skip {s : Store} {sync : Bool} {rest : List Write} (h : s.pending = ⟨none, sync⟩ :: rest) :
      Step .makeRoom s { s with pending := rest }
  | log {s : Store} {n : ℕ} (hnone : s.logged = 0) (hpos : 0 < n) (hle : n ≤ s.pending.length) :
      Step .addRecord s { s with logged := n }
  | commit {s : Store} (hpos : 0 < s.logged) (hle : s.logged ≤ s.pending.length) :
      Step .finish s { s with
        pending := s.pending.drop s.logged
        commits := s.commits ++ [commitOf (s.pending.take s.logged)]
        logged := 0 }
  | beginRead {s : Store} (key : Slice) :
      Step (.beginRead key) s { s with reads := s.reads ++ [(key, s.contents[key]?)] }
  | endRead {s : Store} (i : ℕ) : Step (.endRead i) s { s with reads := s.reads.eraseIdx i }
  | crash {s : Store} (extra : ℕ → ℕ) {commits : List Commit}
      (hsynced : (s.commits.filter Commit.sync).Sublist commits)
      (hsub : commits.Sublist (s.commits ++ s.underWay)) :
      Step (.crash extra) s ⟨[], commits, [], 0⟩
  | internal {s : Store} {e : Event} (h : e.isInternal = true) (hlog : e ≠ .addRecord) : Step e s s

def Writes (ops : List Op) (es : List Entry) : Prop :=
  ∀ (levelDb : Storage.LevelDb) (k : Slice),
    (ops.foldl Op.applyTo levelDb)[k]? = (lastFor es k).getD levelDb[k]?

theorem Writes.append {ops ops' : List Op} {es es' : List Entry} (h : Writes ops es)
    (h' : Writes ops' es') : Writes (ops ++ ops') (es ++ es') := by
  intro levelDb k
  rw [List.foldl_append, h', h, lastFor_append]
  cases lastFor es' k <;> rfl

theorem writes_nil : Writes [] [] := fun _ _ => rfl

theorem writes_op (op : Op) (seq : ℕ) : Writes [op] [⟨op.key, seq, op.value⟩] := by
  intro levelDb k
  cases op with
  | put key value =>
      by_cases hkey : key = k
      · simp [Op.applyTo, lastFor, Op.key, Op.value, hkey]
      · simp [Op.applyTo, lastFor, Op.key, hkey, Std.ExtTreeMap.getElem?_insert]
  | delete key =>
      by_cases hkey : key = k
      · simp [Op.applyTo, lastFor, Op.key, Op.value, hkey]
      · simp [Op.applyTo, lastFor, Op.key, hkey, Std.ExtTreeMap.getElem?_erase]

theorem writes_opEntries (seq : ℕ) (ops : List Op) : Writes ops (opEntries seq ops) := by
  induction ops generalizing seq with
  | nil => exact writes_nil
  | cons op ops ih => exact (writes_op op seq).append (ih (seq + 1))

theorem getElem?_replay {commits : List Commit} {es : List Entry}
    (h : Writes (commits.flatMap Commit.ops) es) (k : Slice) :
    (replay commits)[k]? = (lastFor es k).join := by
  rw [replay, h, Std.ExtTreeMap.getElem?_empty]
  cases lastFor es k <;> rfl

end Store

end Leveldb

end UnifyFramework
