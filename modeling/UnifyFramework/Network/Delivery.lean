import UnifyFramework.Network.HttpRequest

/-!
# Which responses reach their listener

The key of a request in `s_requests` is the text of its address, and the looper thread
deletes the request before it erases the key. A request that is saved in between at the
same address loses its entry, and its own response is dropped when it arrives. These
are the only responses that are lost, and no response reaches another listener.

The invariant keeps track of the addresses: a live request is alone at its address, and
it has its entry unless it was overtaken.
-/

namespace UnifyFramework

namespace Network

open Transition

def Starting.id? : Starting → Option ℕ
  | .idle => none
  | .created id _ => some id
  | .saved id _ => some id

namespace HttpState

def ids (s : HttpState) : List ℕ :=
  s.starting.id?.toList ++ s.outstanding.map ClientCall.id ++ s.completions.map Completion.id

/-- The request is in `s_requests` or should be. -/
def Saved (s : HttpState) (id address : ℕ) : Prop :=
  s.starting = .saved id address ∨
    ∃ call ∈ s.outstanding, call.id = id ∧ call.context = ptrString address

def Live (s : HttpState) (id address : ℕ) : Prop :=
  s.starting = .created id address ∨ s.Saved id address

/-- The completions of the requests that were not overtaken. -/
def unhindered (s : HttpState) : List Completion :=
  s.completions.filter fun c => c.id ∉ s.overtaken

/-- An overtaken request loses its entry, at the latest with the erase that is under way.
The entry of any other request stays. -/
def Registered (s : HttpState) (id address : ℕ) : Prop :=
  (id ∈ s.overtaken → s.completing = .freed (ptrString address) ∨
    (s.requests[ptrString address]?).join = none) ∧
  (id ∉ s.overtaken → s.completing ≠ .freed (ptrString address) ∧
    s.requests[ptrString address]? = some (some address))

structure Tracked (s : HttpState) : Prop where
  heap : ∀ address id request, s.heap address = some (id, request) → s.created[id]? = some request
  contexts : ∀ call ∈ s.outstanding, ∃ address, call.context = ptrString address
  live : ∀ id address, s.Live id address → ∃ request, s.heap address = some (id, request)
  saved : ∀ id address, s.Saved id address → s.Registered id address
  nodup : s.ids.Nodup
  bound : ∀ id ∈ s.ids, id < s.created.length
  overtaken : ∀ id ∈ s.overtaken, id ∈ s.ids ∧ ∀ address, s.starting ≠ .created id address
  completing : ∀ context address, s.completing = .posted context address →
    context = ptrString address ∧
      ∃ id request, s.heap address = some (id, request) ∧ id ∈ s.completions.map Completion.id
  posted : s.posted.map some = s.unhindered.map s.callbackOf

theorem tracked_init : Tracked init := by
  constructor <;> simp [init, ids, Saved, Live, Starting.id?, unhindered]

namespace Tracked

variable {s : HttpState}

theorem address_ne (h : Tracked s) {id id' address address' : ℕ} (hlive : s.Live id address)
    (hlive' : s.Live id' address') (hne : id ≠ id') : address ≠ address' := by
  rintro rfl
  obtain ⟨request, hrequest⟩ := h.live id address hlive
  obtain ⟨request', hrequest'⟩ := h.live id' address hlive'
  rw [hrequest] at hrequest'
  cases hrequest'
  exact hne rfl

theorem lt_of_completed (h : Tracked s) {c : Completion} (hc : c ∈ s.completions) :
    c.id < s.created.length :=
  h.bound c.id (List.mem_append_right _ (List.mem_map_of_mem hc))

/-- A live request has no completion. -/
theorem not_completed (h : Tracked s) {id address : ℕ} (hlive : s.Live id address) :
    id ∉ s.completions.map Completion.id := by
  have hmem : id ∈ s.starting.id?.toList ++ s.outstanding.map ClientCall.id := by
    rcases hlive with hcreated | hsaved | ⟨call, hcall, hid, _⟩
    · simp [hcreated, Starting.id?]
    · simp [hsaved, Starting.id?]
    · exact List.mem_append_right _ (hid ▸ List.mem_map_of_mem hcall)
  exact fun hid => (List.nodup_append.mp h.nodup).2.2 id hmem id hid rfl

/-- The request that is being started is not yet known to the client. -/
theorem call_ne_starting (h : Tracked s) {id : ℕ} (hid : s.starting.id? = some id) :
    ∀ call ∈ s.outstanding, call.id ≠ id := by
  intro call hcall heq
  have hpending := (List.nodup_append.mp h.nodup).1
  rw [hid, Option.toList_some] at hpending
  exact (List.nodup_append.mp hpending).2.2 id List.mem_cons_self call.id
    (List.mem_map_of_mem hcall) heq.symm

theorem allocate (h : Tracked s) (hidle : s.starting = .idle) {address : ℕ}
    (hfree : s.heap address = none) (request : HttpRequest) :
    Tracked (s.allocate request address) := by
  have hother : ∀ {address' id : ℕ} {request' : HttpRequest},
      s.heap address' = some (id, request') →
        (s.allocate request address).heap address' = some (id, request') := by
    intro address' id request' hheap
    rw [← hheap]
    apply Function.update_of_ne
    rintro rfl
    rw [hfree] at hheap
    cases hheap
  have hids : (s.allocate request address).ids = s.created.length :: s.ids := by
    simp only [ids, HttpState.allocate, hidle, Starting.id?]
    rfl
  have hsaved : ∀ id address', (s.allocate request address).Saved id address' →
      s.Saved id address' := by
    rintro id address' (hstarting | hcall)
    · cases hstarting
    · exact Or.inr hcall
  refine ⟨?_, h.contexts, ?_, fun id address' hs => h.saved id address' (hsaved id address' hs),
    ?_, ?_, ?_, ?_, ?_⟩
  · intro address' id request' hheap
    by_cases heq : address' = address
    · simp only [HttpState.allocate, heq, Function.update_self] at hheap
      cases hheap
      exact List.getElem?_concat_length
    · simp only [HttpState.allocate, Function.update_of_ne heq] at hheap
      have hget := h.heap address' id request' hheap
      rwa [HttpState.allocate, List.getElem?_append_left (List.getElem?_eq_some_iff.mp hget).1]
  · rintro id address' (hstarting | hs)
    · cases hstarting
      exact ⟨request, Function.update_self _ _ _⟩
    · obtain ⟨request', hheap⟩ := h.live id address' (Or.inr (hsaved id address' hs))
      exact ⟨request', hother hheap⟩
  · rw [hids]
    exact List.nodup_cons.mpr ⟨fun hmem => Nat.lt_irrefl _ (h.bound _ hmem), h.nodup⟩
  · intro id hid
    rw [hids] at hid
    rw [HttpState.allocate, List.length_append]
    rcases List.mem_cons.mp hid with rfl | hid
    · exact Nat.lt_succ_self _
    · exact Nat.lt_succ_of_lt (h.bound id hid)
  · intro id hid
    have hmem := (h.overtaken id hid).1
    rw [hids]
    refine ⟨List.mem_cons_of_mem _ hmem, ?_⟩
    rintro address' hstarting
    cases hstarting
    exact Nat.lt_irrefl _ (h.bound _ hmem)
  · intro context address' hposted
    obtain ⟨hcontext, id, request', hheap, hid⟩ := h.completing context address' hposted
    exact ⟨hcontext, id, request', hother hheap, hid⟩
  · refine h.posted.trans (List.map_congr_left fun c hc => ?_)
    have hlt := h.lt_of_completed (List.mem_filter.mp hc).1
    rw [callbackOf, callbackOf, HttpState.allocate, List.getElem?_append_left hlt]

theorem mem_overtaken_save_iff (s : HttpState) (id address : ℕ) {id' : ℕ} (hne : id' ≠ id) :
    id' ∈ (s.save id address).overtaken ↔ id' ∈ s.overtaken := by
  simp only [HttpState.save]
  split_ifs
  · simp [hne]
  · rfl

theorem save (h : Tracked s) {id address : ℕ} (hcreated : s.starting = .created id address) :
    Tracked (s.save id address) := by
  have hlive : s.Live id address := Or.inl hcreated
  have hids : (s.save id address).ids = s.ids := by
    simp only [ids, HttpState.save, hcreated, Starting.id?]
  have hnot : id ∉ s.overtaken := fun hid => (h.overtaken id hid).2 address hcreated
  have hcompleted := h.not_completed hlive
  have hcalls := h.call_ne_starting (show s.starting.id? = some id by rw [hcreated]; rfl)
  refine ⟨h.heap, h.contexts, ?_, ?_, ?_, ?_, ?_, h.completing, ?_⟩
  · rintro id' address' (hstarting | hstarting | hcall)
    · cases hstarting
    · cases hstarting
      exact h.live id address hlive
    · exact h.live id' address' (Or.inr (Or.inr hcall))
  · rintro id' address' (hstarting | hcall)
    · cases hstarting
      by_cases hfreed : s.completing = .freed (ptrString address)
      · exact ⟨fun _ => Or.inl hfreed, fun hid => absurd (by simp [HttpState.save, hfreed]) hid⟩
      · refine ⟨fun hid => absurd ?_ hnot, fun _ => ⟨hfreed, ?_⟩⟩
        · simpa [HttpState.save, hfreed] using hid
        · simp [HttpState.save]
    · obtain ⟨call, hcall', hid, hcontext⟩ := hcall
      have hne : id' ≠ id := hid ▸ hcalls call hcall'
      have hsaved : s.Saved id' address' := Or.inr ⟨call, hcall', hid, hcontext⟩
      have haddress := ptrString_injective.ne (h.address_ne hlive (Or.inr hsaved) hne.symm)
      obtain ⟨hin, hout⟩ := h.saved id' address' hsaved
      rw [Registered, mem_overtaken_save_iff s id address hne]
      simpa [HttpState.save, Std.ExtTreeMap.getElem?_insert, haddress] using And.intro hin hout
  · rw [hids]
    exact h.nodup
  · rw [hids]
    exact h.bound
  · intro id' hid'
    rw [hids]
    refine ⟨?_, fun address' hstarting => by cases hstarting⟩
    by_cases heq : id' = id
    · subst heq
      rw [ids, hcreated]
      exact List.mem_cons_self
    · exact (h.overtaken id' ((mem_overtaken_save_iff s id address heq).mp hid')).1
  · have hsame : (s.save id address).unhindered = s.unhindered := by
      apply List.filter_congr
      intro c hc
      have hne : c.id ≠ id := fun heq => hcompleted (heq ▸ List.mem_map_of_mem hc)
      simp only [mem_overtaken_save_iff s id address hne]
    rw [hsame]
    exact h.posted

theorem callClient (h : Tracked s) {id address : ℕ} (hstarting : s.starting = .saved id address)
    {call : ClientCall} (hid : call.id = id) (hcontext : call.context = ptrString address) :
    Tracked (s.callClient call) := by
  have hsaved : ∀ id' address', (s.callClient call).Saved id' address' → s.Saved id' address' := by
    rintro id' address' (hidle | ⟨call', hcall', hid', hcontext'⟩)
    · cases hidle
    · rcases List.mem_append.mp hcall' with hold | hnew
      · exact Or.inr ⟨call', hold, hid', hcontext'⟩
      · cases List.mem_singleton.mp hnew
        rw [hcontext] at hcontext'
        rw [← hid', hid, ← ptrString_injective hcontext']
        exact Or.inl hstarting
  have hids : (s.callClient call).ids.Perm s.ids := by
    simp only [ids, HttpState.callClient, hstarting, Starting.id?, List.map_append, List.map_cons,
      List.map_nil, hid]
    exact (List.perm_append_singleton id _).append_right _
  refine ⟨h.heap, ?_, ?_, fun id' address' hs => h.saved id' address' (hsaved id' address' hs),
    ?_, ?_, ?_, h.completing, h.posted⟩
  · intro call' hcall'
    rcases List.mem_append.mp hcall' with hold | hnew
    · exact h.contexts call' hold
    · cases List.mem_singleton.mp hnew
      exact ⟨address, hcontext⟩
  · rintro id' address' (hidle | hs)
    · cases hidle
    · exact h.live id' address' (Or.inr (hsaved id' address' hs))
  · exact hids.nodup_iff.mpr h.nodup
  · exact fun id' hid' => h.bound id' (hids.mem_iff.mp hid')
  · intro id' hid'
    exact ⟨hids.mem_iff.mpr (h.overtaken id' hid').1, fun address' hidle => by cases hidle⟩

/-- A request that is completed changes its place in the list of identifiers. -/
theorem ids_perm_of_complete {call : ClientCall} (hcall : call ∈ s.outstanding) {outcome : Outcome}
    {s' : HttpState} (hstarting : s'.starting = s.starting)
    (houtstanding : s'.outstanding = s.outstanding.erase call)
    (hcompletions : s'.completions = s.completions ++ [⟨call.id, outcome⟩]) :
    s'.ids.Perm s.ids := by
  simp only [ids, hstarting, houtstanding, hcompletions, List.append_assoc, List.map_append,
    List.map_cons, List.map_nil]
  apply List.Perm.append_left
  rw [← List.append_assoc]
  exact (List.perm_append_singleton call.id _).trans
    (((List.perm_cons_erase hcall).map ClientCall.id).symm.append_right _)

theorem saved_of_complete (h : Tracked s) {call : ClientCall} (hcall : call ∈ s.outstanding)
    {s' : HttpState} (hstarting : s'.starting = s.starting)
    (houtstanding : s'.outstanding = s.outstanding.erase call) {id address : ℕ}
    (hsaved : s'.Saved id address) : s.Saved id address ∧ id ≠ call.id := by
  rcases hsaved with hs | ⟨call', hcall', rfl, hcontext⟩
  · rw [hstarting] at hs
    exact ⟨Or.inl hs, (h.call_ne_starting (by rw [hs]; rfl) call hcall).symm⟩
  · rw [houtstanding] at hcall'
    refine ⟨Or.inr ⟨call', List.mem_of_mem_erase hcall', rfl, hcontext⟩, fun heq => ?_⟩
    have hnodup := (List.nodup_append.mp (List.nodup_append.mp h.nodup).1).2.1
    rw [((List.perm_cons_erase hcall).map ClientCall.id).nodup_iff, List.map_cons,
      List.nodup_cons] at hnodup
    exact hnodup.1 (heq ▸ List.mem_map_of_mem hcall')

/-- The looper thread takes a response, whatever the lookup gives. -/
theorem complete (h : Tracked s) {call : ClientCall} (hcall : call ∈ s.outstanding)
    {outcome : Outcome} (hidle : s.completing = .idle) {s' : HttpState}
    (hheap : s'.heap = s.heap) (hcreated : s'.created = s.created)
    (hstarting : s'.starting = s.starting) (hovertaken : s'.overtaken = s.overtaken)
    (houtstanding : s'.outstanding = s.outstanding.erase call)
    (hcompletions : s'.completions = s.completions ++ [⟨call.id, outcome⟩])
    (hrequests : ∀ context ≠ call.context, s'.requests[context]? = s.requests[context]?)
    (hcompleting : s'.completing = .idle ∨ ∃ address request,
      s'.completing = .posted call.context address ∧ call.context = ptrString address ∧
        s.heap address = some (call.id, request))
    (hposted : s'.posted.map some = s'.unhindered.map s'.callbackOf) : Tracked s' := by
  have hids := ids_perm_of_complete hcall hstarting houtstanding hcompletions
  obtain ⟨own, hown⟩ := h.contexts call hcall
  have hlive : s.Live call.id own := Or.inr (Or.inr ⟨call, hcall, rfl, hown⟩)
  have hfreed : ∀ context, s'.completing ≠ .freed context := by
    intro context hcontext
    rcases hcompleting with hc | ⟨address, request, hc, _⟩
    · rw [hc] at hcontext
      cases hcontext
    · rw [hc] at hcontext
      cases hcontext
  refine ⟨?_, ?_, ?_, ?_, ?_, ?_, ?_, ?_, hposted⟩
  · rw [hheap, hcreated]
    exact h.heap
  · rw [houtstanding]
    exact fun call' hcall' => h.contexts call' (List.mem_of_mem_erase hcall')
  · rw [hheap]
    rintro id address (hs | hs)
    · exact h.live id address (Or.inl (hstarting ▸ hs))
    · exact h.live id address (Or.inr (h.saved_of_complete hcall hstarting houtstanding hs).1)
  · intro id address hs
    obtain ⟨hs, hid⟩ := h.saved_of_complete hcall hstarting houtstanding hs
    have hkey : ptrString address ≠ call.context := by
      rw [hown]
      exact ptrString_injective.ne (h.address_ne (Or.inr hs) hlive hid)
    obtain ⟨hin, hout⟩ := h.saved id address hs
    rw [Registered, hovertaken, hrequests _ hkey]
    refine ⟨fun hmem => ?_, fun hmem => ⟨hfreed _, (hout hmem).2⟩⟩
    rcases hin hmem with hc | hnone
    · rw [hidle] at hc
      cases hc
    · exact Or.inr hnone
  · exact hids.nodup_iff.mpr h.nodup
  · rw [hcreated]
    exact fun id hid => h.bound id (hids.mem_iff.mp hid)
  · rw [hovertaken, hstarting]
    exact fun id hid => ⟨hids.mem_iff.mpr (h.overtaken id hid).1, (h.overtaken id hid).2⟩
  · intro context address hc
    rcases hcompleting with hc' | ⟨address', request, hc', hcontext, hrequest⟩
    · rw [hc'] at hc
      cases hc
    · rw [hc'] at hc
      cases hc
      rw [hheap, hcompletions]
      exact ⟨hcontext, call.id, request, hrequest, by simp⟩

theorem lookup (h : Tracked s) {call : ClientCall} (hcall : call ∈ s.outstanding)
    (hidle : s.completing = .idle) :
    (call.id ∈ s.overtaken ∧ (s.requests[call.context]?).join = none) ∨
      (call.id ∉ s.overtaken ∧ ∃ address request, call.context = ptrString address ∧
        (s.requests[call.context]?).join = some address ∧
        s.heap address = some (call.id, request)) := by
  obtain ⟨address, hcontext⟩ := h.contexts call hcall
  have hsaved : s.Saved call.id address := Or.inr ⟨call, hcall, rfl, hcontext⟩
  obtain ⟨hin, hout⟩ := h.saved call.id address hsaved
  rw [hcontext]
  by_cases hid : call.id ∈ s.overtaken
  · rcases hin hid with hc | hnone
    · rw [hidle] at hc
      cases hc
    · exact Or.inl ⟨hid, hnone⟩
  · obtain ⟨request, hheap⟩ := h.live call.id address (Or.inr hsaved)
    refine Or.inr ⟨hid, address, request, rfl, ?_, hheap⟩
    rw [(hout hid).2]
    rfl

theorem drop (h : Tracked s) {call : ClientCall} (hcall : call ∈ s.outstanding)
    (hidle : s.completing = .idle) (hid : call.id ∈ s.overtaken) (outcome : Outcome) :
    Tracked (s.drop call outcome) := by
  refine h.complete hcall hidle rfl rfl rfl rfl rfl rfl ?_ (Or.inl hidle) ?_
  · intro context hne
    rw [HttpState.drop, Std.ExtTreeMap.getElem?_insert]
    simp [hne.symm]
  · have hsame : (s.drop call outcome).unhindered = s.unhindered := by
      rw [unhindered, HttpState.drop, List.filter_append, List.filter_cons_of_neg (by simpa using hid),
        List.filter_nil, List.append_nil]
      rfl
    rw [hsame]
    exact h.posted

theorem post (h : Tracked s) {call : ClientCall} (hcall : call ∈ s.outstanding)
    (hidle : s.completing = .idle) (hid : call.id ∉ s.overtaken) {address : ℕ}
    {request : HttpRequest} (hcontext : call.context = ptrString address)
    (hheap : s.heap address = some (call.id, request)) (outcome : Outcome) :
    Tracked (s.post call outcome address request) := by
  refine h.complete hcall hidle rfl rfl rfl rfl rfl rfl (fun _ _ => rfl)
    (Or.inr ⟨address, request, rfl, hcontext, hheap⟩) ?_
  have hmore : (s.post call outcome address request).unhindered =
      s.unhindered ++ [⟨call.id, outcome⟩] := by
    rw [unhindered, HttpState.post, List.filter_append, List.filter_cons_of_pos (by simpa using hid),
      List.filter_nil]
    rfl
  have hown : s.callbackOf ⟨call.id, outcome⟩ =
      some ⟨request.jsListener, outcome.statusCode, outcome.response⟩ := by
    rw [callbackOf, h.heap address call.id request hheap, Option.map_some]
  change (s.posted ++ [_]).map some = _
  rw [hmore, List.map_append, List.map_append, h.posted, List.map_singleton, ← hown]
  rfl

theorem free (h : Tracked s) {context : String} {address : ℕ}
    (hposted : s.completing = .posted context address) : Tracked (s.free context address) := by
  obtain ⟨hcontext, own, request, hown, hdone⟩ := h.completing context address hposted
  have hother : ∀ {id address' : ℕ}, s.Live id address' → address' ≠ address := by
    rintro id address' hlive rfl
    obtain ⟨request', hrequest'⟩ := h.live id address' hlive
    rw [hown] at hrequest'
    cases hrequest'
    exact h.not_completed hlive hdone
  refine ⟨?_, h.contexts, ?_, ?_, h.nodup, h.bound, h.overtaken, ?_, h.posted⟩
  · intro address' id request' hheap
    by_cases heq : address' = address
    · simp only [HttpState.free, heq, Function.update_self] at hheap
      cases hheap
    · simp only [HttpState.free, Function.update_of_ne heq] at hheap
      exact h.heap address' id request' hheap
  · intro id address' hlive
    obtain ⟨request', hheap⟩ := h.live id address' hlive
    exact ⟨request', (Function.update_of_ne (hother hlive) _ _).trans hheap⟩
  · intro id address' hsaved
    obtain ⟨hin, hout⟩ := h.saved id address' hsaved
    have hkey := ptrString_injective.ne (hother (Or.inr hsaved))
    refine ⟨fun hid => ?_, fun hid => ⟨?_, (hout hid).2⟩⟩
    · rcases hin hid with hc | hnone
      · rw [hposted] at hc
        cases hc
      · exact Or.inr hnone
    · intro hc
      cases hc
      exact hkey hcontext
  · intro context' address' hc
    cases hc

theorem erase (h : Tracked s) {context : String} (hfreed : s.completing = .freed context) :
    Tracked (s.erase context) := by
  refine ⟨h.heap, h.contexts, h.live, ?_, h.nodup, h.bound, h.overtaken, ?_, h.posted⟩
  · intro id address hsaved
    obtain ⟨hin, hout⟩ := h.saved id address hsaved
    rw [hfreed] at hin hout
    refine ⟨fun hid => Or.inr ?_, fun hid => ⟨(fun hc => by cases hc), ?_⟩⟩
    · rw [HttpState.erase, Std.ExtTreeMap.getElem?_erase]
      split_ifs with heq
      · rfl
      · rcases hin hid with hc | hnone
        · cases hc
          exact absurd (Std.compare_eq_iff_eq.mpr rfl) heq
        · exact hnone
    · rw [HttpState.erase, Std.ExtTreeMap.getElem?_erase, if_neg, (hout hid).2]
      intro heq
      exact (hout hid).1 (congrArg _ (Std.compare_eq_iff_eq.mp heq))
  · intro context' address hc
    cases hc

end Tracked

theorem start_id (request : HttpRequest) (id address : ℕ) : (request.start id address).id = id := by
  cases hm : request.method <;> rw [HttpRequest.start, hm] <;> rfl

theorem start_context (request : HttpRequest) (id address : ℕ) :
    (request.start id address).context = ptrString address := by
  cases hm : request.method <;> rw [HttpRequest.start, hm] <;> rfl

theorem tracked_step (s : HttpState) (e : HttpEvent) (s' : HttpState) (h : Tracked s)
    (hstep : step s e = some s') : Tracked s' := by
  cases e with
  | create url headerData data method jsListener address =>
      rw [step] at hstep
      split_ifs at hstep with hok
      obtain ⟨request, _, rfl⟩ := Option.map_eq_some_iff.mp hstep
      exact h.allocate hok.1 hok.2.2 request
  | save =>
      cases hstarting : s.starting with
      | created id address =>
          simp only [step, hstarting, Option.some.injEq] at hstep
          exact hstep ▸ h.save hstarting
      | idle => simp [step, hstarting] at hstep
      | saved id address => simp [step, hstarting] at hstep
  | call =>
      cases hstarting : s.starting with
      | saved id address =>
          simp only [step, hstarting] at hstep
          obtain ⟨request, _, rfl⟩ := Option.map_eq_some_iff.mp hstep
          exact h.callClient hstarting (start_id _ _ _) (start_context _ _ _)
      | idle => simp [step, hstarting] at hstep
      | created id address => simp [step, hstarting] at hstep
  | complete call outcome =>
      rw [step] at hstep
      split_ifs at hstep with hok
      rcases h.lookup hok.2 hok.1 with ⟨hid, hnone⟩ | ⟨hid, address, request, hcontext, hget, hheap⟩
      · simp only [hnone, Option.some.injEq] at hstep
        exact hstep ▸ h.drop hok.2 hok.1 hid outcome
      · simp only [hget, hheap, Option.map_some, Option.some.injEq] at hstep
        exact hstep ▸ h.post hok.2 hok.1 hid hcontext hheap outcome
  | free =>
      cases hcompleting : s.completing with
      | posted context address =>
          simp only [step, hcompleting, Option.some.injEq] at hstep
          exact hstep ▸ h.free hcompleting
      | idle => simp [step, hcompleting] at hstep
      | freed context => simp [step, hcompleting] at hstep
  | erase =>
      cases hcompleting : s.completing with
      | freed context =>
          simp only [step, hcompleting, Option.some.injEq] at hstep
          exact hstep ▸ h.erase hcompleting
      | idle => simp [step, hcompleting] at hstep
      | posted context address => simp [step, hcompleting] at hstep

theorem tracked_of_run {es : List HttpEvent} {s : HttpState} (hrun : run step init es = some s) :
    Tracked s :=
  run_invariant tracked_step tracked_init hrun

/-- No lookup yields a request that is deleted: every response can be taken. -/
theorem complete_isSome {es : List HttpEvent} {s : HttpState} (hrun : run step init es = some s)
    (hidle : s.completing = .idle) {call : ClientCall} (hcall : call ∈ s.outstanding)
    (outcome : Outcome) : (step s (.complete call outcome)).isSome := by
  rw [step, if_pos ⟨hidle, hcall⟩]
  rcases (tracked_of_run hrun).lookup hcall hidle with
    ⟨_, hnone⟩ | ⟨_, address, request, _, hget, hheap⟩
  · rw [hnone]
    rfl
  · simp only [hget, hheap]
    rfl

/-- Every completion has led to its callback, and to no other, exactly if it belongs to a
request that was not overtaken. -/
theorem delivered_iff_not_overtaken (es : List HttpEvent) (s : HttpState)
    (hrun : run step init es = some s) :
    s.Delivered ↔ ∀ c ∈ s.completions, c.id ∉ s.overtaken := by
  have h := tracked_of_run hrun
  constructor
  · rintro ⟨_, hposted⟩
    have hlen := congrArg List.length (hposted.symm.trans h.posted)
    rw [List.length_map, List.length_map] at hlen
    have hall := List.length_filter_eq_length_iff.mp hlen.symm
    exact fun c hc => of_decide_eq_true (hall c hc)
  · intro hall
    refine ⟨(List.nodup_append.mp h.nodup).2.1, ?_⟩
    rw [h.posted, unhindered, List.filter_eq_self.mpr fun c hc => decide_eq_true (hall c hc)]

def addressReused : List HttpEvent :=
  [.create "u" none none "get" 7 26, .save, .call,
    .complete ⟨0, "get", "u", "", "0x1a"⟩ (.success 200 "one"), .free,
    .create "v" none (some "d") "post" 8 26, .erase, .save, .call,
    .complete ⟨1, "post", "v", "d", "0x1a"⟩ (.failure 0 none)]

theorem delivered_addressReused :
    ∃ s, run step init addressReused = some s ∧ s.Delivered ∧
      s.posted = [⟨7, 200, "one"⟩, ⟨8, -1, ""⟩] :=
  ⟨_, rfl, (delivered_iff_not_overtaken addressReused _ rfl).mpr (by decide), by decide⟩

def savedTooEarly : List HttpEvent :=
  [.create "u" none none "get" 7 26, .save, .call,
    .complete ⟨0, "get", "u", "", "0x1a"⟩ (.success 200 "one"), .free,
    .create "v" none none "get" 8 26, .save, .erase, .call,
    .complete ⟨1, "get", "v", "", "0x1a"⟩ (.success 200 "two")]

/-- The response to the second request is dropped. -/
theorem not_delivered_savedTooEarly :
    ∃ s, run step init savedTooEarly = some s ∧ ¬ s.Delivered ∧
      s.completions.map Completion.id = [0, 1] ∧ s.posted = [⟨7, 200, "one"⟩] :=
  ⟨_, rfl, by decide, by decide, by decide⟩

end HttpState

end Network

end UnifyFramework
