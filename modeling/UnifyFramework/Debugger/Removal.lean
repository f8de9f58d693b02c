import UnifyFramework.Debugger.Dialogue

/-!
# Removed breakpoints

`RemoveBreakpoint` looks for the breakpoint in `breakpointMap` and asks Duktape to delete
the index it finds there. A breakpoint whose AddBreakpoint request has no reply yet is not
in the map, so removing it does nothing; and an index can be out of date, or one of two.
Where none of this is the case the breakpoint is gone, with everything that is still under
way taken into account, and only another AddBreakpoint call brings it back.
-/

namespace UnifyFramework

namespace Debugger

open Duktape Transition

namespace Dialogue

/-- Duktape's breakpoint table once it has processed all requests. -/
def upcoming (s : Dialogue) : BreakpointTable := (serve emptyTable s.issued).2

/-- The place was added and then removed, and not added again. -/
def Removed (filename : Bytes) (line : Int) (history : List BreakpointCall) : Prop :=
  ∃ before after, history = before ++ .remove filename line :: after ∧
    .add filename line ∈ before ∧ .add filename line ∉ after

def Quiescent (s : Dialogue) : Prop :=
  s.system.threads () = .idle ∧ s.system.debugger.grammarReceiver.recognizerQueue = []

/-- The condition on the calls: breakpoints that are added can be encoded, and where the
place is removed it is not pending, the identifier that is found is the only one that
`breakpointMap` has for it, and it is the only index that Duktape has for it once the
requests sent so far are processed. -/
def Removes (filename : Bytes) (line : Int) (s : Dialogue) : DialogueEvent → Prop
  | .call (.remove filename' line') =>
      (filename', line') = (filename, line) →
        (filename, line) ∉ s.system.debugger.breakpointPendingList ∧
        (∀ entry ∈ s.system.debugger.breakpointMap.toList, entry.2 = (filename, line) →
          s.system.debugger.findBreakpoint (filename, line) = some entry.1) ∧
        ∀ entry ∈ s.upcoming.entries.zipIdx, placeOf entry.1 = (filename, line) →
          s.system.debugger.findBreakpoint (filename, line) = some (entry.2 : Int)
  | e => s.Encodes e

instance decidableRemoves (filename : Bytes) (line : Int) (s : Dialogue) :
    (e : DialogueEvent) → Decidable (s.Removes filename line e)
  | .call (.remove _ _) => inferInstanceAs (Decidable (_ → _ ∧ (∀ _ ∈ _, _ → _) ∧ ∀ _ ∈ _, _ → _))
  | .call (.add filename' line') =>
      inferInstanceAs (Decidable (s.Encodes (.call (.add filename' line'))))
  | .advance | .read _ | .put _ => inferInstanceAs (Decidable True)

theorem Removes.encodes {filename : Bytes} {line : Int} {s : Dialogue} {e : DialogueEvent}
    (h : s.Removes filename line e) : s.Encodes e := by
  cases e with
  | call c =>
      cases c with
      | add filename' line' => exact h
      | remove filename' line' => trivial
  | advance => trivial
  | read length => trivial
  | put data => trivial

/-- The last call decides whether the place stays removed. -/
theorem Removed.of_concat {filename : Bytes} {line : Int} {history : List BreakpointCall}
    {c : BreakpointCall} (h : Removed filename line (history ++ [c])) :
    c = .remove filename line ∨ Removed filename line history ∧ c ≠ .add filename line := by
  obtain ⟨before, after, hsplit, hbefore, hafter⟩ := h
  rcases List.eq_nil_or_concat' after with rfl | ⟨after', last, rfl⟩
  · obtain ⟨_, hlast⟩ := List.append_inj' hsplit rfl
    exact Or.inl (List.singleton_inj.mp hlast)
  · rw [← List.cons_append, ← List.append_assoc] at hsplit
    obtain ⟨hhistory, hlast⟩ := List.append_inj' hsplit rfl
    cases List.singleton_inj.mp hlast
    refine Or.inr ⟨⟨before, after', hhistory, hbefore, ?_⟩, ?_⟩
    · exact fun hmem => hafter (List.mem_append_left _ hmem)
    · rintro rfl
      exact hafter (List.mem_append_right _ List.mem_cons_self)

/-- The place is neither stored nor pending, and will not be in Duktape's table. -/
structure Gone (place : Place) (s : Dialogue) : Prop where
  pending : place ∉ s.system.debugger.breakpointPendingList
  map : ∀ id : Int, s.system.debugger.breakpointMap[id]? ≠ some place
  table : ∀ b ∈ s.upcoming.entries, placeOf b ≠ place

/-- A deletion, also of an index that is not in use. -/
theorem entries_handle_delBreak (table : BreakpointTable) (index : UInt32) :
    (handle [] table (.delBreak index)).2.entries = table.entries.eraseIdx index.toNat := by
  rw [handle, dukDebugRemoveBreakpoint]
  by_cases hlt : index.toNat < table.entries.length
  · rw [if_pos hlt]
  · rw [if_neg hlt, List.eraseIdx_of_length_le (Nat.le_of_not_lt hlt)]

theorem mem_handle_addBreak {table : BreakpointTable} {filename : Bytes} {line : UInt32}
    {b : Breakpoint} (h : b ∈ (handle [] table (.addBreak filename line)).2.entries) :
    b ∈ table.entries ∨ b = ⟨filename, line⟩ := by
  rw [handle, dukDebugAddBreakpoint] at h
  by_cases hlt : table.entries.length < maxBreakpoints
  · rw [dif_pos hlt] at h
    simpa using h
  · rw [dif_neg hlt] at h
    exact Or.inl h

theorem serve_concat {requests : List Request} (h : AllSent requests) {request : Request}
    {q : DukRequest} (hq : Sent request q) :
    (serve emptyTable (requests ++ [request])).2 =
      (handle [] (serve emptyTable requests).2 q).2 := by
  rw [serve_append h, serve_cons hq]
  rfl

section Steps

variable {sign : CharSign} {s s' : Dialogue} {filename : Bytes} {line : Int}

theorem gone_remove (h : s.Linked) (hcond : s.Removes filename line (.call (.remove filename line)))
    (hstep : step sign s (.call (.remove filename line)) = some s') :
    Gone (filename, line) s' := by
  obtain ⟨hpending, hmap, htable⟩ := hcond rfl
  have hmap' : ∀ id : Int, s.system.debugger.breakpointMap[id]? = some (filename, line) →
      s.system.debugger.findBreakpoint (filename, line) = some id :=
    fun id hid => hmap _ (Std.ExtTreeMap.mem_toList_iff_getElem?_eq_some.mpr hid) rfl
  have htable' : ∀ (n : ℕ) b, s.upcoming.entries[n]? = some b → placeOf b = (filename, line) →
      s.system.debugger.findBreakpoint (filename, line) = some (n : Int) :=
    fun n b hb hplace => htable (b, n) (List.mem_zipIdx_iff_getElem?.mpr hb) hplace
  obtain ⟨hidle, next, hnext, rfl⟩ := step_call_eq_some hstep
  cases hnext with
  | unknown hfind =>
      refine ⟨hpending, fun id hid => ?_, fun b hb hplace => ?_⟩
      · cases hfind.symm.trans (hmap' id hid)
      · rw [upcoming, issued_move hidle, coming, Option.toList_none, List.append_nil] at hb
        obtain ⟨n, hn⟩ := List.mem_iff_getElem?.mp hb
        cases hfind.symm.trans (htable' n b hn hplace)
  | take hfind hid =>
      rename_i id
      have hencodable := h.keys id _ (DukDebugger.findBreakpoint_eq_some hfind).1
      refine ⟨hpending, fun id' hid' => ?_, fun b hb hplace => ?_⟩
      · change (s.system.debugger.breakpointMap.erase id)[id']? = some (filename, line) at hid'
        rw [Std.ExtTreeMap.getElem?_erase] at hid'
        split at hid'
        · cases hid'
        · rename_i hne
          have heq : id = id' := Option.some.inj (hfind.symm.trans (hmap' id' hid'))
          exact hne (compare_eq_iff_eq.mpr heq)
      · rw [upcoming, issued_move hidle, coming, Option.toList_some,
          serve_concat h.sent (Sent.remove hencodable), entries_handle_delBreak] at hb
        obtain ⟨n, hlt, hne, hn⟩ := List.mem_eraseIdx_iff_getElem.mp hb
        have hn' : s.upcoming.entries[n]? = some b := List.getElem?_eq_some_iff.mpr ⟨hlt, hn⟩
        have heq : id = (n : Int) := Option.some.inj (hfind.symm.trans (htable' n b hn' hplace))
        obtain ⟨hlo, hhi⟩ := hencodable
        refine hne ?_
        rw [UInt32.toNat_ofNat', Nat.mod_eq_of_lt (by omega)]
        omega
  | lost hfind =>
      have hencodable := h.keys (-1) _ (DukDebugger.findBreakpoint_eq_some hfind).1
      exact absurd hencodable.1 (by decide)

/-- Other calls do not bring the place back. -/
theorem Gone.call (hgone : Gone (filename, line) s) (h : s.Linked) {c : BreakpointCall}
    (hcond : s.Encodes (.call c)) (hne : c ≠ .add filename line)
    (hstep : step sign s (.call c) = some s') : Gone (filename, line) s' := by
  obtain ⟨hidle, next, hnext, rfl⟩ := step_call_eq_some hstep
  have hmap : ∀ id : Int, next.1.breakpointMap[id]? ≠ some (filename, line) :=
    fun id hid => hgone.map id (hnext.breakpointMap hid)
  have hunchanged : ∀ (d : DukDebugger) changes history,
      upcoming ⟨s.system.move () (d, .idle) changes, s.engine, history⟩ = s.upcoming := by
    intro d changes history
    rw [upcoming, issued_move hidle, coming, Option.toList_none, List.append_nil]
    rfl
  cases hnext with
  | known _ => exact ⟨hgone.pending, hmap, by rw [hunchanged]; exact hgone.table⟩
  | unknown _ => exact ⟨hgone.pending, hmap, by rw [hunchanged]; exact hgone.table⟩
  | lost _ => exact ⟨hgone.pending, hmap, by rw [hunchanged]; exact hgone.table⟩
  | pend hfind =>
      rename_i filename' line'
      have hplace : (filename, line) ≠ (filename', line') := by
        intro heq
        obtain ⟨rfl, rfl⟩ := Prod.mk.inj heq
        exact hne rfl
      obtain ⟨hname, hline⟩ := hcond hfind
      refine ⟨?_, hmap, fun b hb hb' => ?_⟩
      · intro hmem
        rcases List.mem_append.mp hmem with hin | hin
        · exact hgone.pending hin
        · exact hplace (List.mem_singleton.mp hin)
      · rw [upcoming, issued_move hidle, coming, Option.toList_some,
          serve_concat h.sent (Sent.add hname hline)] at hb
        rcases mem_handle_addBreak hb with hin | rfl
        · exact hgone.table b hin hb'
        · rw [placeOf_encodable hline] at hb'
          exact hplace hb'.symm
  | take hfind hid =>
      have hencodable := h.keys _ _ (DukDebugger.findBreakpoint_eq_some hfind).1
      refine ⟨hgone.pending, hmap, fun b hb => ?_⟩
      rw [upcoming, issued_move hidle, coming, Option.toList_some,
        serve_concat h.sent (Sent.remove hencodable), entries_handle_delBreak] at hb
      exact hgone.table b (List.mem_of_mem_eraseIdx hb)

/-- The receivers only store places that are pending. -/
theorem gone_foldl_call {place : Place} (calls : List Callback) {d : DukDebugger}
    (hpending : place ∉ d.breakpointPendingList)
    (hmap : ∀ id : Int, d.breakpointMap[id]? ≠ some place) :
    place ∉ (calls.foldl DukDebugger.call d).breakpointPendingList ∧
      ∀ id : Int, (calls.foldl DukDebugger.call d).breakpointMap[id]? ≠ some place := by
  induction calls generalizing d with
  | nil => exact ⟨hpending, hmap⟩
  | cons c calls ih =>
      cases c with
      | replyAddBreakpointReceiver replyInt =>
          rw [List.foldl_cons, DukDebugger.call, DukDebugger.onAddBreakpoint]
          split
          · exact ih hpending hmap
          · rename_i first rest hlist
            rw [hlist] at hpending
            refine ih (fun hmem => hpending (List.mem_cons_of_mem _ hmem)) fun id hid => ?_
            rw [Std.ExtTreeMap.getElem?_insert] at hid
            split at hid
            · exact hpending (Option.some.inj hid ▸ List.mem_cons_self)
            · exact hmap id hid
      | _ => exact ih hpending hmap

theorem Gone.step {place : Place} (hgone : Gone place s) {e : DialogueEvent}
    (he : ∀ c, e ≠ .call c) (hstep : Dialogue.step sign s e = some s') : Gone place s' := by
  cases e with
  | call c => exact absurd rfl (he c)
  | advance =>
      obtain ⟨hissued, _, _, _, hmap, hpending, _⟩ := step_advance_eq_some hstep
      refine ⟨hpending ▸ hgone.pending, hmap ▸ hgone.map, ?_⟩
      rw [upcoming, hissued]
      exact hgone.table
  | read length =>
      cases step_read_eq_some hstep
      refine ⟨?_, ?_, hgone.table⟩
      · rw [DukDebugger.innerSendData_eq]
        exact hgone.pending
      · rw [DukDebugger.innerSendData_eq]
        exact hgone.map
  | put data =>
      cases step_put_eq_some hstep
      have hput := gone_foldl_call (s.system.debugger.grammarReceiver.put sign data).1
        (d := { s.system.debugger with
          grammarReceiver := (s.system.debugger.grammarReceiver.put sign data).2 })
        hgone.pending hgone.map
      exact ⟨hput.1, hput.2, hgone.table⟩

end Steps

theorem gone_of_removed_step (sign : CharSign) (filename : Bytes) (line : Int) (s : Dialogue)
    (e : DialogueEvent) (s' : Dialogue)
    (h : s.Linked ∧ (Removed filename line s.history → Gone (filename, line) s))
    (hcond : s.Removes filename line e) (hstep : step sign s e = some s') :
    s'.Linked ∧ (Removed filename line s'.history → Gone (filename, line) s') := by
  refine ⟨linked_step sign s e s' h.1 hcond.encodes hstep, fun hremoved => ?_⟩
  cases e with
  | call c =>
      obtain ⟨_, _, _, heq⟩ := step_call_eq_some hstep
      have hhistory : s'.history = s.history ++ [c] := congrArg history heq
      rw [hhistory] at hremoved
      rcases hremoved.of_concat with rfl | ⟨hbefore, hne⟩
      · exact gone_remove h.1 hcond hstep
      · exact (h.2 hbefore).call h.1 hcond.encodes hne hstep
  | advance =>
      obtain ⟨_, _, hhistory, _⟩ := step_advance_eq_some hstep
      rw [hhistory] at hremoved
      exact (h.2 hremoved).step (by simp) hstep
  | read length =>
      cases step_read_eq_some hstep
      exact (h.2 hremoved).step (by simp) hstep
  | put data =>
      cases step_put_eq_some hstep
      exact (h.2 hremoved).step (by simp) hstep

/-- Once nothing is under way, Duktape's table is the one that was to come. -/
theorem Linked.table_of_quiescent {s : Dialogue} (h : s.Linked) (hquiescent : s.Quiescent) :
    s.engine.table = s.upcoming := by
  obtain ⟨hidle, hqueue⟩ := hquiescent
  obtain ⟨accepted, waiting, hmatched⟩ := h.matched
  obtain ⟨hle, hreplies⟩ := h.length_written
  have hkinds := queue_of_receiveAll hmatched.received.received
  rw [hqueue] at hkinds
  have hall : s.system.appended.length ≤ s.system.written.length := by
    have hpushed : s.system.kinds.length ≤ (replies accepted).length :=
      List.drop_eq_nil_iff.mp hkinds.symm
    have happended := hmatched.kinds_of_appended.length_le
    rw [List.length_map] at happended
    have haccepted : (replies accepted).length ≤ (replies s.system.written).length := by
      rw [hmatched.written, replies_append, List.length_append]
      omega
    omega
  rw [h.table_eq, List.take_of_length_le hall, upcoming, issued_of_idle hidle]

/-- In a run whose calls keep to the condition, a place that was added, then removed and not
added again is in neither table once nothing is under way. -/
theorem removed_stays_removed (sign : CharSign) (filename : Bytes) (line : Int)
    (es : List DialogueEvent) (s : Dialogue)
    (hcond : Along (step sign) (Removes filename line) init es)
    (hrun : run (step sign) init es = some s) (hremoved : Removed filename line s.history)
    (hquiescent : s.Quiescent) :
    (∀ id : Int, s.system.debugger.breakpointMap[id]? ≠ some (filename, line)) ∧
      ∀ b ∈ s.engine.table.entries, placeOf b ≠ (filename, line) := by
  have hinit : init.Linked ∧ (Removed filename line init.history → Gone (filename, line) init) := by
    refine ⟨linked_init, ?_⟩
    rintro ⟨before, after, hsplit, _⟩
    cases before <;> cases hsplit
  obtain ⟨hlinked, hgone⟩ := run_invariant_along
    (I := fun s => s.Linked ∧ (Removed filename line s.history → Gone (filename, line) s))
    (gone_of_removed_step sign filename line) hinit hcond hrun
  rw [hlinked.table_of_quiescent hquiescent]
  exact ⟨(hgone hremoved).map, (hgone hremoved).table⟩

/-- The client waits for the reply before it removes the breakpoint. -/
def removeAfterReply : List DialogueEvent :=
  [.call (.add [0x61] 1), .advance, .advance, .read 3, .read 100, .put [0x02], .put [0x80, 0x00],
    .call (.remove [0x61] 1), .advance, .advance, .read 100, .put [0x02, 0x00]]

theorem removed_removeAfterReply :
    ∃ s, run (step .signed) init removeAfterReply = some s ∧
      (∀ id : Int, s.system.debugger.breakpointMap[id]? ≠ some ([0x61], 1)) ∧
      ∀ b ∈ s.engine.table.entries, placeOf b ≠ ([0x61], 1) :=
  ⟨_, rfl, removed_stays_removed .signed [0x61] 1 removeAfterReply _ (by decide) rfl
    ⟨[.add [0x61] 1], [], rfl, by decide, by decide⟩ ⟨rfl, rfl⟩⟩

def removeBeforeReply : List DialogueEvent :=
  [.call (.add [0x61] 1), .advance, .advance, .call (.remove [0x61] 1), .read 100,
    .put [0x02, 0x80, 0x00]]

/-- The removal finds nothing, and the reply then stores the breakpoint. -/
theorem not_removed_removeBeforeReply :
    ∃ s, run (step .signed) init removeBeforeReply = some s ∧ Removed [0x61] 1 s.history ∧
      s.Quiescent ∧ s.system.debugger.breakpointMap[(0 : Int)]? = some ([0x61], 1) ∧
      s.engine.table.entries = [⟨[0x61], 1⟩] :=
  ⟨_, rfl, ⟨[.add [0x61] 1], [], rfl, by decide, by decide⟩, ⟨rfl, rfl⟩, by decide, by decide⟩

end Dialogue

end Debugger

end UnifyFramework
