import UnifyFramework.Timer.View

/-!
# Every step is a step of the views

A step of one of the threads is, for every timer, one of the view steps or leaves its
view alone. `ClearedInTime` passes to the views the condition that a clear comes while
no callback of the timer is queued.
-/

namespace UnifyFramework

namespace Timer

open Transition

namespace CETimerUtils

def ClearedInTime (s : CETimerUtils) : TimerEvent → Prop
  | .clear timerId => ∀ job ∈ s.queue, job.timerId? ≠ some timerId
  | _ => True

theorem Grounded.stage_of_idle {s : CETimerUtils} (h : Grounded s) (hidle : s.creating = .idle)
    {k : ℕ} (hk : (k : Int) < s.timerCounter) : (s.view k).stage = .issued := by
  have hlt : k < s.created.length := by
    have := h.idle hidle
    omega
  simp only [view, stage, hidle, hlt, if_true]

theorem viewStep_construct {inTime : Prop} {s : CETimerUtils} (hidle : s.creating = .idle)
    (interval : Int) (repeats : Bool) (callback k : ℕ) :
    ViewStep inTime k (s.view k) ((s.construct interval repeats callback).view k) := by
  refine viewStep_of_update (view_construct s hidle interval repeats callback) ?_ k
  refine .construct _ ⟨s.timerCounter, interval, repeats, callback, s.now + interval⟩ ?_
  simp [view, stage, hidle]

theorem viewStep_asyncWait {inTime : Prop} {s : CETimerUtils} (h : Grounded s) {t : TimerStruct}
    {interval : Int} (hcreating : s.creating = .constructed t interval) (k : ℕ) :
    ViewStep inTime k (s.view k) ((s.asyncWait t interval).view k) := by
  refine viewStep_of_update (view_asyncWait h hcreating) (.asyncWait _ t interval ?_) k
  simp [view, stage, hcreating]

theorem viewStep_emplace {inTime : Prop} {s : CETimerUtils} (h : Grounded s) {t : TimerStruct}
    {interval : Int} (hcreating : s.creating = .registered t interval) (k : ℕ) :
    ViewStep inTime k (s.view k) ((s.emplace t).view k) := by
  refine viewStep_of_update (view_emplace h hcreating) (.emplace _ t interval ?_) k
  simp [view, stage, hcreating]

theorem viewStep_expire {inTime : Prop} {s : CETimerUtils} {w : Wait} (hw : w ∈ s.handlers)
    (hstate : w.state = .waiting) (k : ℕ) :
    ViewStep inTime k (s.view k) ((s.expire w).view k) := by
  refine viewStep_of_update (view_expire s w) (.expire _ w ?_ hstate) k
  exact List.mem_filter.mpr ⟨hw, by simp⟩

theorem viewStep_clear {inTime : Prop} {s : CETimerUtils} (h : Grounded s)
    (hidle : s.creating = .idle) {timerId : Int} (htime : inTime → ClearedInTime s (.clear timerId))
    (k : ℕ) : ViewStep inTime k (s.view k) ((s.clear timerId).view k) := by
  by_cases hrange : 0 ≤ timerId ∧ timerId < s.timerCounter
  · obtain ⟨k₀, rfl⟩ := Int.eq_ofNat_of_zero_le hrange.1
    have hstage := h.stage_of_idle hidle hrange.2
    have hjobs : inTime → (s.view k₀).jobs = [] := by
      intro hin
      exact List.filter_eq_nil_iff.mpr fun job hjob => by simpa using htime hin job hjob
    rw [clear, if_pos hrange]
    cases hentry : s.timerMap[(k₀ : Int)]? with
    | none =>
        simp only [cancelTimer, hentry]
        exact viewStep_of_update (view_note s k₀ .cleared) (.clearAgain _ hentry hstage hjobs) k
    | some t =>
        have htimer : t.timer = k₀ := (Int.ofNat_inj.mp (h.entries _ t hentry).1).symm
        refine viewStep_of_update ?_ (.clear _ t hentry hstage hjobs) k
        rw [view_note, view_cancelTimer hentry htimer, Function.update_idem, Function.update_self]
  · rw [clear, if_neg hrange]
    cases hentry : s.timerMap[timerId]? with
    | none =>
        simp only [cancelTimer, hentry]
        exact .stay _
    | some t =>
        obtain ⟨hid, hlt⟩ := h.entries timerId t hentry
        have hcounter := h.idle hidle
        exact absurd (by omega) hrange

theorem viewStep_fire {inTime : Prop} {s : CETimerUtils} (h : Grounded s) {w : Wait}
    (hw : w ∈ s.handlers) (hwait : w.state ≠ .waiting) (k : ℕ) :
    ViewStep inTime k (s.view k) ((s.fire w).view k) := by
  have hid := h.handlers w hw
  have hmem : w ∈ (s.view w.timer).waits := List.mem_filter.mpr ⟨hw, by simp⟩
  rw [fire, onTimerFire]
  split_ifs with herror
  · exact viewStep_of_update (view_erase s w)
      (.ignore _ w hmem hwait (Or.inl (of_decide_eq_true herror))) k
  · have hready : w.state = .ready := by
      cases hstate : w.state with
      | waiting => exact absurd hstate hwait
      | ready => rfl
      | aborted => exact absurd (decide_eq_true hstate) herror
    cases hentry : s.timerMap[w.timerId]? with
    | none =>
        rw [hid] at hentry
        exact viewStep_of_update (view_erase s w) (.ignore _ w hmem hwait (Or.inr hentry)) k
    | some t =>
        have htimer : t.timer = w.timer := by
          have heq := (h.entries _ t hentry).1
          rw [hid] at heq
          exact (Int.ofNat_inj.mp heq).symm
        rw [hid] at hentry ⊢
        simp only
        split_ifs with hrepeats
        · refine viewStep_of_update ?_ (.again _ w t hmem hready hentry hrepeats) k
          rw [view_rearm _ htimer, view_callJsFunction, view_erase, Function.update_idem,
            Function.update_idem, Function.update_self, Function.update_self]
        · refine viewStep_of_update ?_
            (.once _ w t hmem hready hentry (Bool.not_eq_true _ ▸ hrepeats)) k
          rw [view_cancelTimer ?_ htimer, view_callJsFunction, view_erase, Function.update_idem,
            Function.update_idem, Function.update_self, Function.update_self]
          rw [view_callJsFunction, view_erase, Function.update_self, Function.update_self]
          exact hentry

theorem viewStep_begin {inTime : Prop} {s : CETimerUtils} {job : Job} {rest : List Job}
    (hqueue : s.queue = job :: rest) (k : ℕ) :
    ViewStep inTime k (s.view k) ((s.begin job rest).view k) := by
  have hjobs : (s.view k).jobs = (if job.timerId? = some (k : Int) then [job] else []) ++
      rest.filter fun job => job.timerId? = some (k : Int) := by
    simp only [view, hqueue, List.filter_cons, decide_eq_true_eq]
    split_ifs <;> rfl
  cases job with
  | other =>
      have hsame : (s.begin .other rest).view k = s.view k := by
        ext1
        case jobs => exact hjobs.symm
        all_goals rfl
      rw [hsame]
      exact .stay _
  | callJsFunction timerId callback =>
      by_cases hk : timerId = k
      · subst hk
        rw [Job.timerId?, if_pos rfl] at hjobs
        rw [begin, view_note, Function.update_self]
        exact .run _ _ _ hjobs
      · have hsame : (s.begin (.callJsFunction timerId callback) rest).view k = s.view k := by
          rw [Job.timerId?, if_neg fun heq => hk (Option.some.inj heq)] at hjobs
          ext1
          case jobs => exact hjobs.symm
          case history => exact Function.update_of_ne (Ne.symm hk) _ _
          all_goals rfl
        rw [hsame]
        exact .stay _

theorem timerId_of_mem_abort {n : ℕ} {handlers : List Wait}
    (h : ∀ w ∈ handlers, w.timerId = w.timer) : ∀ w ∈ abort n handlers, w.timerId = w.timer := by
  intro w hw
  obtain ⟨w', hw', rfl⟩ := List.mem_map.mp hw
  split_ifs <;> exact h w' hw'

namespace Grounded

variable {s : CETimerUtils}

/-- A step outside of `createTimer`. -/
theorem of_same (h : Grounded s) {s' : CETimerUtils} (hcreated : s'.created = s.created)
    (hcreating : s'.creating = s.creating) (hcounter : s'.timerCounter = s.timerCounter)
    (hhandlers : ∀ w ∈ s'.handlers, w.timerId = w.timer)
    (hentries : ∀ (id : Int) (t : TimerStruct), s'.timerMap[id]? = some t →
      id = t.timer ∧ t.timer < s.created.length) : Grounded s' := by
  refine ⟨?_, ?_, ?_, ?_, hhandlers, ?_⟩
  · rw [hcreated]
    exact h.ids
  · rw [hcreated, hcreating, hcounter]
    exact h.idle
  · rw [hcreated, hcreating, hcounter]
    exact h.busy
  · rw [hcreated, hcreating]
    exact h.current
  · rw [hcreated]
    exact hentries

theorem note (h : Grounded s) (timerId : Int) (x : Note) : Grounded (s.note timerId x) :=
  h.of_same rfl rfl rfl h.handlers h.entries

theorem cancelTimer (h : Grounded s) (timerId : Int) : Grounded (s.cancelTimer timerId) := by
  rw [CETimerUtils.cancelTimer]
  split
  · exact h
  · next t hentry =>
      apply note
      refine h.of_same rfl rfl rfl (timerId_of_mem_abort h.handlers) ?_
      intro id t' hget
      rw [Std.ExtTreeMap.getElem?_erase] at hget
      split_ifs at hget
      exact h.entries id t' hget

theorem clear (h : Grounded s) (timerId : Int) : Grounded (s.clear timerId) := by
  rw [CETimerUtils.clear]
  split_ifs
  · exact (h.cancelTimer timerId).note _ _
  · exact h.cancelTimer timerId

theorem callJsFunction (h : Grounded s) (timerId : Int) (callback : ℕ) :
    Grounded (s.callJsFunction timerId callback) :=
  h.of_same rfl rfl rfl h.handlers h.entries

theorem rearm (h : Grounded s) {timerId : Int} {t : TimerStruct}
    (hentry : s.timerMap[timerId]? = some t) (interval : Int) :
    Grounded (s.rearm timerId interval t) := by
  have ht := h.entries timerId t hentry
  refine h.of_same rfl rfl rfl ?_ ?_
  · intro w hw
    rcases List.mem_append.mp hw with hold | hnew
    · exact timerId_of_mem_abort h.handlers w hold
    · rw [List.mem_singleton.mp hnew]
      exact ht.1
  · intro id t' hget
    simp only [CETimerUtils.rearm, Std.ExtTreeMap.getElem?_insert] at hget
    split_ifs at hget with hid
    · cases hget
      rw [← Std.compare_eq_iff_eq.mp hid]
      exact ht
    · exact h.entries id t' hget

theorem fire (h : Grounded s) (w : Wait) : Grounded (s.fire w) := by
  have herase : Grounded { s with handlers := s.handlers.erase w } :=
    h.of_same rfl rfl rfl (fun w' hw' => h.handlers w' (List.mem_of_mem_erase hw')) h.entries
  rw [CETimerUtils.fire, onTimerFire]
  split_ifs
  · exact herase
  · split
    · exact herase
    · next t hentry =>
        have hpost := herase.callJsFunction w.timerId t.callback
        split_ifs
        · exact hpost.rearm hentry w.interval
        · exact hpost.cancelTimer w.timerId

theorem begin (h : Grounded s) (job : Job) (rest : List Job) : Grounded (s.begin job rest) := by
  have hrest : Grounded { s with queue := rest, running := true } :=
    h.of_same rfl rfl rfl h.handlers h.entries
  cases job with
  | callJsFunction timerId callback => exact hrest.note _ _
  | other => exact hrest

theorem expire (h : Grounded s) {w : Wait} (hw : w ∈ s.handlers) : Grounded (s.expire w) := by
  refine h.of_same rfl rfl rfl ?_ h.entries
  intro w' hw'
  rcases List.mem_append.mp hw' with hold | hnew
  · exact h.handlers w' (List.mem_of_mem_erase hold)
  · rw [List.mem_singleton.mp hnew]
    exact h.handlers w hw

theorem construct (h : Grounded s) (hidle : s.creating = .idle) (interval : Int) (repeats : Bool)
    (callback : ℕ) : Grounded (s.construct interval repeats callback) := by
  have hcounter := h.idle hidle
  refine ⟨?_, ?_, ?_, ?_, h.handlers, ?_⟩
  · intro k c hc
    simp only [CETimerUtils.construct] at hc
    by_cases hlt : k < s.created.length
    · rw [List.getElem?_append_left hlt] at hc
      exact h.ids k c hc
    · have hk : k = s.created.length := by
        have := (List.getElem?_eq_some_iff.mp hc).1
        rw [List.length_append, List.length_singleton] at this
        omega
      rw [hk, List.getElem?_concat_length] at hc
      cases hc
      rw [hk]
      exact hcounter
  · simp [CETimerUtils.construct]
  · intro _
    simp [CETimerUtils.construct, hcounter]
  · intro t i hcreating
    simp only [CETimerUtils.construct, Creating.constructed.injEq, reduceCtorEq, or_false]
      at hcreating
    rw [← hcreating.1]
    simp [CETimerUtils.construct]
  · intro id t hget
    have ht := h.entries id t hget
    refine ⟨ht.1, ?_⟩
    rw [CETimerUtils.construct, List.length_append]
    exact Nat.lt_succ_of_lt ht.2

theorem asyncWait (h : Grounded s) {t : TimerStruct} {interval : Int}
    (hcreating : s.creating = .constructed t interval) : Grounded (s.asyncWait t interval) := by
  have hbusy := h.busy (by rw [hcreating]; simp)
  refine ⟨h.ids, by simp [CETimerUtils.asyncWait], fun _ => hbusy, ?_, ?_, h.entries⟩
  · intro t' interval' hcreating'
    simp only [CETimerUtils.asyncWait, reduceCtorEq, Creating.registered.injEq, false_or]
      at hcreating'
    rw [← hcreating'.1]
    exact h.current t interval (Or.inl hcreating)
  · intro w hw
    rcases List.mem_append.mp hw with hold | hnew
    · exact h.handlers w hold
    · rw [List.mem_singleton.mp hnew]
      exact (h.counter_eq (Or.inl hcreating)).1

theorem emplace (h : Grounded s) {t : TimerStruct} {interval : Int}
    (hcreating : s.creating = .registered t interval) : Grounded (s.emplace t) := by
  have hbusy := h.busy (by rw [hcreating]; simp)
  refine ⟨h.ids, by simp [CETimerUtils.emplace], fun _ => hbusy, by simp [CETimerUtils.emplace],
    h.handlers, ?_⟩
  intro id t' hget
  simp only [CETimerUtils.emplace, Std.ExtTreeMap.getElem?_insertIfNew] at hget
  split_ifs at hget with hid
  · cases hget
    rw [← Std.compare_eq_iff_eq.mp hid.1]
    exact h.counter_eq (Or.inr hcreating)
  · exact h.entries id t' hget

theorem increment (h : Grounded s) (hcreating : s.creating = .emplaced) :
    Grounded s.increment := by
  have hbusy := h.busy (by rw [hcreating]; simp)
  exact ⟨h.ids, fun _ => hbusy, by simp [CETimerUtils.increment],
    by simp [CETimerUtils.increment], h.handlers, h.entries⟩

end Grounded

/-- Every step keeps the identifiers in order and is a view step for every timer. -/
theorem step_simulates {inTime : Prop} {s s' : CETimerUtils} {e : TimerEvent} (h : Grounded s)
    (hstep : step s e = some s') (htime : inTime → ClearedInTime s e) :
    Grounded s' ∧ ∀ k, ViewStep inTime k (s.view k) (s'.view k) := by
  cases e with
  | post =>
      cases hstep
      refine ⟨h.of_same rfl rfl rfl h.handlers h.entries, fun k => ?_⟩
      have hsame : view { s with queue := s.queue ++ [.other] } k = s.view k := by
        ext1
        case jobs => simp [view, List.filter_append, Job.timerId?]
        all_goals rfl
      rw [hsame]
      exact .stay _
  | begin =>
      rw [step] at hstep
      split at hstep
      · next job rest _ hqueue =>
          cases hstep
          exact ⟨h.begin job rest, viewStep_begin hqueue⟩
      · cases hstep
  | finish =>
      rw [step] at hstep
      split_ifs at hstep
      cases hstep
      exact ⟨h.of_same rfl rfl rfl h.handlers h.entries, fun k => .stay _⟩
  | construct interval repeats callback =>
      rw [step] at hstep
      split_ifs at hstep with hok
      cases hstep
      exact ⟨h.construct hok.2.1 _ _ _, viewStep_construct hok.2.1 _ _ _⟩
  | asyncWait =>
      rw [step] at hstep
      split at hstep
      · next t interval hcreating =>
          cases hstep
          exact ⟨h.asyncWait hcreating, viewStep_asyncWait h hcreating⟩
      · cases hstep
  | emplace =>
      rw [step] at hstep
      split at hstep
      · next t interval hcreating =>
          cases hstep
          exact ⟨h.emplace hcreating, viewStep_emplace h hcreating⟩
      · cases hstep
  | increment =>
      rw [step] at hstep
      split_ifs at hstep with hcreating
      cases hstep
      rw [view_increment hcreating]
      exact ⟨h.increment hcreating, fun k => .stay _⟩
  | clear timerId =>
      rw [step] at hstep
      split_ifs at hstep with hok
      cases hstep
      exact ⟨h.clear timerId, viewStep_clear h hok.2 htime⟩
  | tick milliseconds =>
      cases hstep
      exact ⟨h.of_same rfl rfl rfl h.handlers h.entries, fun k => .stay _⟩
  | expire w =>
      rw [step] at hstep
      split_ifs at hstep with hok
      cases hstep
      exact ⟨h.expire hok.1, viewStep_expire hok.1 hok.2.1⟩
  | fire w =>
      rw [step] at hstep
      split_ifs at hstep with hok
      cases hstep
      exact ⟨h.fire w, viewStep_fire h hok.1 hok.2⟩

end CETimerUtils

end Timer

end UnifyFramework
