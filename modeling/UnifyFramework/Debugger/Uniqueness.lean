import UnifyFramework.Debugger.Dialogue

/-!
# Breakpoints that are added once

`AddBreakpoint` looks for the breakpoint in `breakpointMap`, where it stands only after the
reply. A client that adds a breakpoint again before the reply therefore has it twice. If
it does not, the places it adds are all different: those that are not pending any more are
in the map, each under the index that Duktape's table has for it.
-/

namespace UnifyFramework

namespace Debugger

open Duktape Transition

def Adds (requests : List Request) : Prop :=
  ∀ request ∈ requests, ∃ filename line, SizeEncodable filename.length ∧ IntEncodable line ∧
    request = createAddBreakpointRequest filename line

theorem Adds.allSent {requests : List Request} (h : Adds requests) : AllSent requests := by
  intro request hmem
  obtain ⟨filename, line, hname, hline, rfl⟩ := h request hmem
  exact ⟨_, Sent.add hname hline⟩

/-- The answer to an AddBreakpoint request is the index of the new entry, or there is no
slot and the table stays as it is. -/
theorem handle_addBreak (table : BreakpointTable) (filename : Bytes) (line : UInt32) :
    (∃ table', handle [] table (.addBreak filename line) =
        (.reply (.index (Int32.ofNat table.entries.length)), table') ∧
      table'.entries = table.entries ++ [⟨filename, line⟩] ∧
      (Int32.ofNat table.entries.length).toInt = table.entries.length) ∨
    handle [] table (.addBreak filename line) = (noSpaceForBreakpoint, table) := by
  by_cases hslot : table.entries.length < maxBreakpoints
  · obtain ⟨table', hadd, hentries⟩ := dukDebugAddBreakpoint_of_lt ⟨filename, line⟩ hslot
    refine Or.inl ⟨table', ?_, hentries, (Connection.index_supported hslot).2⟩
    rw [handle, hadd]
  · refine Or.inr ?_
    rw [handle, dukDebugAddBreakpoint, dif_neg hslot]

theorem entries_prefix_serve {requests : List Request} (h : Adds requests)
    (table : BreakpointTable) : table.entries <+: (serve table requests).2.entries := by
  induction requests generalizing table with
  | nil => exact List.prefix_rfl
  | cons request requests ih =>
      obtain ⟨⟨filename, line, hname, hline, rfl⟩, hadds⟩ := List.forall_mem_cons.mp h
      rw [serve_cons (Sent.add hname hline)]
      rcases handle_addBreak table filename (UInt32.ofNat line.toNat) with
        ⟨table', hhandle, hentries, _⟩ | hhandle
      · rw [hhandle]
        refine List.IsPrefix.trans ?_ (ih hadds table')
        rw [hentries]
        exact List.prefix_append _ _
      · rw [hhandle]
        exact ih hadds table

/-- The places in the table are those of the requests that had a slot. -/
theorem places_sublist_serve {requests : List Request} (h : Adds requests)
    (table : BreakpointTable) :
    ((serve table requests).2.entries.map placeOf).Sublist
      (table.entries.map placeOf ++ requests.filterMap Request.place) := by
  induction requests generalizing table with
  | nil => simp [serve]
  | cons request requests ih =>
      obtain ⟨⟨filename, line, hname, hline, rfl⟩, hadds⟩ := List.forall_mem_cons.mp h
      rw [serve_cons (Sent.add hname hline)]
      have hplace : (createAddBreakpointRequest filename line).place = some (filename, line) := rfl
      rw [List.filterMap_cons_some hplace]
      rcases handle_addBreak table filename (UInt32.ofNat line.toNat) with
        ⟨table', hhandle, hentries, _⟩ | hhandle
      · have hrest := ih hadds table'
        rw [hentries, List.map_append, List.map_singleton, placeOf_encodable hline,
          List.append_assoc, List.singleton_append] at hrest
        rw [hhandle]
        exact hrest
      · rw [hhandle]
        exact (ih hadds table).trans
          ((List.Sublist.refl _).append (List.sublist_cons_self _ _))

theorem answers_of_adds {requests : List Request} (h : Adds requests) (table : BreakpointTable)
    {m : DukMessage} (hm : m ∈ (serve table requests).1) :
    (∃ idx, m = .reply (.index idx)) ∨ m = noSpaceForBreakpoint := by
  induction requests generalizing table with
  | nil => cases hm
  | cons request requests ih =>
      obtain ⟨⟨filename, line, hname, hline, rfl⟩, hadds⟩ := List.forall_mem_cons.mp h
      rw [serve_cons (Sent.add hname hline)] at hm
      rcases List.mem_cons.mp hm with rfl | hin
      · rcases handle_addBreak table filename (UInt32.ofNat line.toNat) with
          ⟨table', hhandle, _⟩ | hhandle
        · rw [hhandle]
          exact Or.inl ⟨_, rfl⟩
        · rw [hhandle]
          exact Or.inr rfl
      · exact ih hadds _ hin

theorem placeAt_of_prefix {entries entries' : List Breakpoint} (h : entries <+: entries')
    {index : Int} {place : Place} (hplace : placeAt entries index = some place) :
    placeAt entries' index = some place := by
  obtain ⟨n, b, rfl, hb, hplaceOf⟩ := placeAt_eq_some_iff.mp hplace
  refine placeAt_eq_some_iff.mpr ⟨n, b, rfl, ?_, hplaceOf⟩
  obtain ⟨more, rfl⟩ := h
  obtain ⟨hlt, _⟩ := List.getElem?_eq_some_iff.mp hb
  rw [List.getElem?_append_left hlt, hb]

/-- Every index that is answered is the index of the place of its request. -/
theorem placeAt_of_answered {requests : List Request} (h : Adds requests) (table : BreakpointTable)
    {values : List (Option DukReply)} (hvalues : values <+: replies (serve table requests).1)
    {entry : Int × Option Place} (hentry : entry ∈ answeredPlaces requests values) :
    ∃ place, entry.2 = some place ∧
      placeAt (serve table requests).2.entries entry.1 = some place := by
  induction requests generalizing table values with
  | nil => cases values <;> cases hentry
  | cons request requests ih =>
      obtain ⟨⟨filename, line, hname, hline, rfl⟩, hadds⟩ := List.forall_mem_cons.mp h
      rw [serve_cons (Sent.add hname hline)] at hvalues ⊢
      cases values with
      | nil => cases hentry
      | cons value values =>
          rcases handle_addBreak table filename (UInt32.ofNat line.toNat) with
            ⟨table', hhandle, hentries, hindex⟩ | hhandle
          · rw [hhandle] at hvalues ⊢
            obtain ⟨rfl, hrest⟩ := List.cons_prefix_cons.mp hvalues
            rw [answeredPlaces] at hentry
            rcases List.mem_cons.mp hentry with rfl | hin
            · refine ⟨(filename, line), rfl, ?_⟩
              refine placeAt_of_prefix (entries_prefix_serve hadds table') ?_
              rw [hentries, placeAt_append, if_pos hindex.symm, placeOf_encodable hline]
            · exact ih hadds table' hrest hin
          · rw [hhandle] at hvalues ⊢
            obtain ⟨rfl, hrest⟩ := List.cons_prefix_cons.mp hvalues
            exact ih hadds table hrest hentry

/-- Where every answer is an index, the places of the answered requests are stored. -/
theorem stored_of_answered {requests : List Request} {values : List (Option DukReply)}
    (hvalues : ∀ value ∈ values, ∃ idx, value = some (.index idx)) {request : Request}
    (hmem : request ∈ requests.take values.length) :
    ∃ id, (id, request.place) ∈ answeredPlaces requests values := by
  induction requests generalizing values with
  | nil => simp at hmem
  | cons first requests ih =>
      cases values with
      | nil => simp at hmem
      | cons value values =>
          obtain ⟨⟨idx, rfl⟩, hrest⟩ := List.forall_mem_cons.mp hvalues
          rw [List.length_cons, List.take_succ_cons] at hmem
          rcases List.mem_cons.mp hmem with rfl | hin
          · exact ⟨_, List.mem_cons_self⟩
          · obtain ⟨id, hid⟩ := ih hrest hin
            exact ⟨id, List.mem_cons_of_mem _ hid⟩

/-- `breakpointMap` after some replies: an entry is one of those stored, or was there. -/
theorem getElem?_foldl_insert {entries : List (Int × Option Place)}
    {map : Std.ExtTreeMap Int Place} {id : Int} {place : Place}
    (h : (entries.foldl (fun map entry => entry.2.elim map (map.insert entry.1)) map)[id]? =
      some place) : (id, some place) ∈ entries ∨ map[id]? = some place := by
  induction entries generalizing map with
  | nil => exact Or.inr h
  | cons entry entries ih =>
      obtain ⟨id', place'⟩ := entry
      rcases ih h with hin | hmap
      · exact Or.inl (List.mem_cons_of_mem _ hin)
      · cases place' with
        | none => exact Or.inr hmap
        | some place' =>
            change (map.insert id' place')[id]? = some place at hmap
            rw [Std.ExtTreeMap.getElem?_insert] at hmap
            split at hmap
            · rename_i heq
              cases hmap
              rw [Std.LawfulEqCmp.eq_of_compare heq]
              exact Or.inl List.mem_cons_self
            · exact Or.inr hmap

/-- What is in the map, or stored, stays there under its identifier. -/
theorem isSome_foldl_insert {entries : List (Int × Option Place)} {map : Std.ExtTreeMap Int Place}
    {id : Int} (h : (map[id]?).isSome ∨ ∃ place, (id, some place) ∈ entries) :
    (entries.foldl (fun map entry => entry.2.elim map (map.insert entry.1)) map)[id]?.isSome := by
  induction entries generalizing map with
  | nil =>
      rcases h with h | ⟨place, hin⟩
      · exact h
      · cases hin
  | cons entry entries ih =>
      obtain ⟨id', place'⟩ := entry
      refine ih ?_
      have hinsert : ∀ place, (id = id' ∨ (map[id]?).isSome) →
          ((map.insert id' place)[id]?).isSome := by
        intro place hid
        rw [Std.ExtTreeMap.getElem?_insert]
        split
        · rfl
        · rename_i hne
          exact hid.resolve_left fun heq => hne (compare_eq_iff_eq.mpr heq.symm)
      rcases h with h | ⟨place, hin⟩
      · cases place' with
        | none => exact Or.inl h
        | some place' => exact Or.inl (hinsert place' (Or.inr h))
      · rcases List.mem_cons.mp hin with heq | hin
        · cases heq
          exact Or.inl (hinsert place (Or.inl rfl))
        · exact Or.inr ⟨place, hin⟩

namespace Dialogue

/-- The condition on the calls: there are no removals, and a breakpoint that is not in
`breakpointMap` is not pending either and can be encoded. -/
def AddsAfresh (s : Dialogue) : DialogueEvent → Prop
  | .call (.add filename line) =>
      s.system.debugger.findBreakpoint (filename, line) = none →
        (filename, line) ∉ s.system.debugger.breakpointPendingList ∧
          SizeEncodable filename.length ∧ IntEncodable line
  | .call (.remove _ _) => False
  | _ => True

instance decidableAddsAfresh (s : Dialogue) : (e : DialogueEvent) → Decidable (s.AddsAfresh e)
  | .call (.add _ _) => inferInstanceAs (Decidable (_ → _))
  | .call (.remove _ _) => inferInstanceAs (Decidable False)
  | .advance | .read _ | .put _ => inferInstanceAs (Decidable True)

theorem AddsAfresh.encodes {s : Dialogue} {e : DialogueEvent} (h : s.AddsAfresh e) :
    s.Encodes e := by
  cases e with
  | call c =>
      cases c with
      | add filename line => exact fun hfind => (h hfind).2
      | remove filename line => cases h
  | advance => trivial
  | read length => trivial
  | put data => trivial

/-- No place is twice in `breakpointMap` or in Duktape's table. -/
structure NoDuplicates (s : Dialogue) : Prop where
  map : ∀ (id id' : Int) place, s.system.debugger.breakpointMap[id]? = some place →
    s.system.debugger.breakpointMap[id']? = some place → id = id'
  table : (s.engine.table.entries.map placeOf).Nodup

/-- Duktape's table once it has processed the requests that were appended. -/
def appendedTable (s : Dialogue) : BreakpointTable := (serve emptyTable s.system.appended).2

/-- The places that were ever pended are different, and `breakpointMap` has those that were
answered, under the indices of Duktape. -/
structure Distinct (s : Dialogue) : Prop where
  linked : s.Linked
  adds : Adds s.issued
  places : (s.system.pended.map Prod.snd).Nodup
  confirmed : ∀ (id : Int) place, s.system.debugger.breakpointMap[id]? = some place →
    placeAt s.appendedTable.entries id = some place
  kept : ∀ (id : Int) place, (id, some place) ∈ s.system.stored →
    s.system.debugger.breakpointMap[id]? = some place

theorem distinct_init : Distinct init := by
  refine ⟨linked_init, fun request h => absurd h List.not_mem_nil, List.nodup_nil, ?_,
    fun id place h => absurd h List.not_mem_nil⟩
  intro id place h
  have hnone : (∅ : Std.ExtTreeMap Int Place)[id]? = none := Std.ExtTreeMap.getElem?_empty
  exact absurd (hnone.symm.trans h) (by simp)

namespace Distinct

variable {sign : CharSign} {s s' : Dialogue}

theorem adds_appended (h : s.Distinct) : Adds s.system.appended :=
  fun request hmem => h.adds request (List.mem_append_left _ hmem)

theorem nodup_appendedTable (h : s.Distinct) : (s.appendedTable.entries.map placeOf).Nodup := by
  obtain ⟨accepted, waiting, hmatched⟩ := h.linked.matched
  have hsublist := places_sublist_serve h.adds_appended emptyTable
  exact (h.places.sublist hmatched.places.served_of_drawn.sublist).sublist hsublist

theorem eq_of_placeAt (h : s.Distinct) {id id' : Int} {place : Place}
    (hid : placeAt s.appendedTable.entries id = some place)
    (hid' : placeAt s.appendedTable.entries id' = some place) : id = id' := by
  obtain ⟨n, b, rfl, hb, hplace⟩ := placeAt_eq_some_iff.mp hid
  obtain ⟨n', b', rfl, hb', hplace'⟩ := placeAt_eq_some_iff.mp hid'
  have hn : (s.appendedTable.entries.map placeOf)[n]? = some place := by
    rw [List.getElem?_map, hb, Option.map_some, hplace]
  have hn' : (s.appendedTable.entries.map placeOf)[n']? = some place := by
    rw [List.getElem?_map, hb', Option.map_some, hplace']
  obtain ⟨hlt, _⟩ := List.getElem?_eq_some_iff.mp hn
  have heq : n = n' := (List.getElem?_inj hlt h.nodup_appendedTable).mp (hn.trans hn'.symm)
  rw [heq]

theorem noDuplicates (h : s.Distinct) : s.NoDuplicates := by
  refine ⟨fun id id' place hid hid' =>
    h.eq_of_placeAt (h.confirmed id place hid) (h.confirmed id' place hid'), ?_⟩
  have hinitial : s.engine.table.entries <+: s.appendedTable.entries := by
    rw [appendedTable, h.linked.serve_appended]
    exact entries_prefix_serve
      (fun request hmem => h.adds_appended request (List.mem_of_mem_drop hmem)) _
  exact h.nodup_appendedTable.sublist (hinitial.map placeOf).sublist

theorem index_of_accepted (h : s.Distinct) {accepted waiting : List DukMessage}
    (hmatched : s.system.Matched accepted waiting) :
    ∀ value ∈ replies accepted, ∃ idx, value = some (.index idx) := by
  intro value hvalue
  obtain ⟨m, hm, hreply⟩ := List.mem_filterMap.mp hvalue
  have hmem : m ∈ s.system.written := by
    rw [hmatched.written]
    exact List.mem_append_left _ hm
  have hserved : m ∈ (serve emptyTable s.system.appended).1 := by
    rw [h.linked.serve_appended]
    exact List.mem_append_left _ hmem
  rcases answers_of_adds h.adds_appended emptyTable hserved with ⟨idx, rfl⟩ | rfl
  · cases hreply
    exact ⟨idx, rfl⟩
  · exact absurd (hmatched.received.supported _ hm) (by simp [noSpaceForBreakpoint, DukMessage.Supported])

theorem mem_of_pended (h : s.Distinct) {place : Place}
    (hmem : place ∈ s.system.pended.map Prod.snd)
    (hpending : place ∉ s.system.debugger.breakpointPendingList) :
    ∃ id : Int, s.system.debugger.breakpointMap[id]? = some place := by
  obtain ⟨accepted, waiting, hmatched⟩ := h.linked.matched
  rw [hmatched.pending] at hpending
  rw [← List.take_append_drop (s.system.placesAnswered (replies accepted).length)
    (s.system.pended.map Prod.snd)] at hmem
  have htake := (List.mem_append.mp hmem).resolve_right hpending
  -- the answered places are those of the first requests
  have hinitial : (s.system.appended.take (replies accepted).length).filterMap Request.place <+:
      s.system.pended.map Prod.snd :=
    ((List.take_prefix _ _).filterMap Request.place).trans hmatched.places.served_of_drawn
  rw [System.placesAnswered, ← List.prefix_iff_eq_take.mp hinitial] at htake
  obtain ⟨request, hrequest, hplace⟩ := List.mem_filterMap.mp htake
  obtain ⟨id, hid⟩ := stored_of_answered (h.index_of_accepted hmatched) hrequest
  rw [hplace, ← hmatched.stored] at hid
  exact ⟨id, h.kept id place hid⟩

theorem call (h : s.Distinct) {c : BreakpointCall} (hcond : s.AddsAfresh (.call c))
    (hstep : step sign s (.call c) = some s') : s'.Distinct := by
  have hlinked := h.linked.call hcond.encodes hstep
  obtain ⟨hidle, next, hnext, rfl⟩ := step_call_eq_some hstep
  have htable : appendedTable ⟨s.system.move () next (s.system.debugger.removals c.method),
      s.engine, s.history ++ [c]⟩ = s.appendedTable := by
    simp only [appendedTable, appended_move hidle]
  have hissued := issued_move hidle next (s.system.debugger.removals c.method) (s.history ++ [c])
  have hstored := s.system.stored_move () next (s.system.debugger.filterMap_removals c.method)
  cases hnext with
  | known hfind =>
      refine ⟨hlinked, ?_, ?_, ?_, fun id place hid => h.kept id place (hstored ▸ hid)⟩
      · rw [hissued, coming, Option.toList_none, List.append_nil]
        exact h.adds
      · simp only [System.move, List.append_nil]
        exact h.places
      · rw [htable]
        exact h.confirmed
  | pend hfind =>
      obtain ⟨hpending, hname, hline⟩ := hcond hfind
      refine ⟨hlinked, ?_, ?_, ?_, fun id place hid => h.kept id place (hstored ▸ hid)⟩
      · rw [hissued, coming, Option.toList_some]
        refine List.forall_mem_append.mpr ⟨h.adds, ?_⟩
        intro request hrequest
        exact ⟨_, _, hname, hline, List.mem_singleton.mp hrequest⟩
      · simp only [System.move, List.map_append, List.map_singleton]
        rw [← List.concat_eq_append]
        refine h.places.concat fun hmem => ?_
        obtain ⟨id, hid⟩ := h.mem_of_pended hmem hpending
        exact (DukDebugger.findBreakpoint_eq_none_iff _ _).mp hfind id hid
      · rw [htable]
        exact h.confirmed
  | unknown _ => cases hcond
  | take _ _ => cases hcond
  | lost _ => cases hcond

theorem advance (h : s.Distinct) (hstep : step sign s .advance = some s') : s'.Distinct := by
  have hlinked := h.linked.advance hstep
  obtain ⟨hissued, _, _, _, hmap, _, hpended, hstored, more, happended, _⟩ :=
    step_advance_eq_some hstep
  have hadds : Adds s'.issued := hissued ▸ h.adds
  have hinitial : s.appendedTable.entries <+: s'.appendedTable.entries := by
    rw [appendedTable, appendedTable, happended, serve_append h.adds_appended.allSent]
    refine entries_prefix_serve (fun request hmem => hadds request ?_) _
    rw [issued, happended]
    exact List.mem_append_left _ (List.mem_append_right _ hmem)
  refine ⟨hlinked, hadds, hpended ▸ h.places, ?_, ?_⟩
  · intro id place hid
    rw [hmap] at hid
    exact placeAt_of_prefix hinitial (h.confirmed id place hid)
  · rw [hstored, hmap]
    exact h.kept

theorem read (h : s.Distinct) {length : ℕ} (hstep : step sign s (.read length) = some s') :
    s'.Distinct := by
  have hlinked := h.linked.read hstep
  cases step_read_eq_some hstep
  have hmap : (s.system.debugger.innerSendData length).2.breakpointMap =
      s.system.debugger.breakpointMap := by
    rw [DukDebugger.innerSendData_eq]
  refine ⟨hlinked, h.adds, h.places, ?_, ?_⟩
  · rw [hmap]
    exact h.confirmed
  · rw [hmap]
    exact h.kept

theorem put (h : s.Distinct) {data : Bytes} (hstep : step sign s (.put data) = some s') :
    s'.Distinct := by
  have hlinked := h.linked.put hstep
  cases step_put_eq_some hstep
  obtain ⟨accepted, waiting, hmatched⟩ := hlinked.matched
  -- what has been stored stands in the table under its index
  have hwritten : s.system.written <+: (serve emptyTable s.system.appended).1 := by
    rw [h.linked.serve_appended]
    exact List.prefix_append _ _
  have haccepted : replies accepted <+: replies (serve emptyTable s.system.appended).1 := by
    have hinitial : accepted <+: s.system.written := ⟨waiting, hmatched.written.symm⟩
    exact (hinitial.trans hwritten).filterMap _
  have hplaceAt : ∀ (id : Int) place, (id, some place) ∈ s.system.stored ++
      storedPlaces s.system.debugger (s.system.debugger.grammarReceiver.put sign data).1 →
      placeAt s.appendedTable.entries id = some place := by
    intro id place hmem
    have hstored : s.system.stored ++
        storedPlaces s.system.debugger (s.system.debugger.grammarReceiver.put sign data).1 =
        answeredPlaces s.system.appended (replies accepted) := by
      rw [← System.stored_put]
      exact hmatched.stored
    rw [hstored] at hmem
    obtain ⟨place', hplace', hplaceAt⟩ :=
      placeAt_of_answered h.adds_appended emptyTable haccepted hmem
    cases hplace'
    exact hplaceAt
  have hmap : (s.system.debugger.dukTransDvalueWrite sign data).breakpointMap =
      (storedPlaces s.system.debugger (s.system.debugger.grammarReceiver.put sign data).1).foldl
        (fun map entry => entry.2.elim map (map.insert entry.1))
        s.system.debugger.breakpointMap := by
    rw [DukDebugger.dukTransDvalueWrite, DukDebugger.breakpointMap_foldl_call,
      storedPlaces_receiver]
  have hconfirmed : ∀ (id : Int) place,
      (s.system.debugger.dukTransDvalueWrite sign data).breakpointMap[id]? = some place →
      placeAt s.appendedTable.entries id = some place := by
    intro id place hid
    rw [hmap] at hid
    rcases getElem?_foldl_insert hid with hin | hold
    · exact hplaceAt id place (List.mem_append_right _ hin)
    · exact h.confirmed id place hold
  refine ⟨hlinked, h.adds, h.places, hconfirmed, fun id place hmem => ?_⟩
  rw [System.stored_put] at hmem
  -- the entry under the identifier can only be the place that the table has there
  have hsome : ((s.system.debugger.dukTransDvalueWrite sign data).breakpointMap[id]?).isSome := by
    rw [hmap]
    refine isSome_foldl_insert ?_
    rcases List.mem_append.mp hmem with hold | hnew
    · exact Or.inl (by rw [h.kept id place hold]; rfl)
    · exact Or.inr ⟨place, hnew⟩
  obtain ⟨place', hplace'⟩ := Option.isSome_iff_exists.mp hsome
  have heq : place' = place :=
    Option.some.inj ((hconfirmed id place' hplace').symm.trans (hplaceAt id place hmem))
  rw [← heq]
  exact hplace'

end Distinct

theorem distinct_step (sign : CharSign) (s : Dialogue) (e : DialogueEvent) (s' : Dialogue)
    (h : s.Distinct) (hcond : s.AddsAfresh e) (hstep : step sign s e = some s') :
    s'.Distinct := by
  cases e with
  | call c => exact h.call hcond hstep
  | advance => exact h.advance hstep
  | read length => exact h.read hstep
  | put data => exact h.put hstep

/-- In every state of a run whose calls keep to the condition, there are no duplicates. -/
theorem noDuplicates_of_addsAfresh (sign : CharSign) (es : List DialogueEvent) (s : Dialogue)
    (hcond : Along (step sign) AddsAfresh init es) (hrun : run (step sign) init es = some s) :
    s.NoDuplicates :=
  (run_invariant_along (distinct_step sign) distinct_init hcond hrun).noDuplicates

def addAgain : List DialogueEvent :=
  [.call (.add [0x61] 1), .advance, .advance, .call (.add [0x62] 2), .advance, .advance, .read 100,
    .put [0x02, 0x80, 0x00], .call (.add [0x61] 1), .put [0x02, 0x81, 0x00]]

theorem noDuplicates_addAgain :
    ∃ s, run (step .signed) init addAgain = some s ∧ s.NoDuplicates ∧
      s.engine.table.entries = [⟨[0x61], 1⟩, ⟨[0x62], 2⟩] :=
  ⟨_, rfl, noDuplicates_of_addsAfresh .signed addAgain _ (by decide) rfl, by decide⟩

/-- A breakpoint is added twice before the reply. -/
def addBeforeReply : List DialogueEvent :=
  [.call (.add [0x61] 1), .advance, .advance, .call (.add [0x61] 1), .advance, .advance, .read 100,
    .put [0x02, 0x80, 0x00, 0x02, 0x81, 0x00]]

/-- Both tables have it twice. -/
theorem not_noDuplicates_addBeforeReply :
    ∃ s, run (step .signed) init addBeforeReply = some s ∧ ¬ s.NoDuplicates ∧
      s.system.debugger.breakpointMap.toList = [(0, ([0x61], 1)), (1, ([0x61], 1))] ∧
      s.engine.table.entries = [⟨[0x61], 1⟩, ⟨[0x61], 1⟩] :=
  ⟨_, rfl, fun h => absurd h.table (by decide), by decide, by decide⟩

end Dialogue

end Debugger

end UnifyFramework
