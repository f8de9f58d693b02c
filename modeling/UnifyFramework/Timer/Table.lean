import Mathlib.Data.List.Nodup
import UnifyFramework.Timer.Guarantees

/-!
# The table of timers

Here `createTimer` is one step, as are `cancelTimer` and `onTimerFire`, so no handler
runs before the entry of its timer is made. Then `timerMap` has exactly the timers that
are still to fire, each of them has exactly one handler, and a repeating timer keeps to
its schedule.
-/

namespace UnifyFramework

namespace Timer

open Transition

inductive TableEvent
  | createTimer (interval : Int) (repeats : Bool) (callback : ℕ)
  | cancelTimer (timerId : Int)
  | tick (milliseconds : ℕ)
  | expire (w : Wait)
  | onTimerFire (w : Wait)
  deriving DecidableEq

namespace CETimerUtils

/-- All the steps of `createTimer`. -/
def createTimer (s : CETimerUtils) (interval : Int) (repeats : Bool) (callback : ℕ) :
    CETimerUtils :=
  let timerStruct : TimerStruct := ⟨s.created.length, s.now + interval, repeats, callback⟩
  (((s.construct interval repeats callback).asyncWait timerStruct interval).emplace
    timerStruct).increment

def tableStep (s : CETimerUtils) : TableEvent → Option CETimerUtils
  | .createTimer interval repeats callback =>
      if s.timerCounter < 2 ^ 31 - 1 then some (s.createTimer interval repeats callback) else none
  | .cancelTimer timerId => some (s.clear timerId)
  | .tick milliseconds => some { s with now := s.now + milliseconds }
  | .expire w =>
      if w ∈ s.handlers ∧ w.state = .waiting ∧ w.expiry ≤ s.now then some (s.expire w) else none
  | .onTimerFire w => if w ∈ s.handlers ∧ w.state ≠ .waiting then some (s.fire w) else none

structure TableInvariant (s : CETimerUtils) : Prop where
  keys : ∀ timerId : Int, (s.timerMap[timerId]?).isSome ↔
    ∃ c ∈ s.created, c.timerId = timerId ∧ .cleared ∉ s.history timerId ∧
      (c.repeats = true ∨ .posted ∉ s.history timerId)
  handlers : ∀ (timerId : Int) (t : TimerStruct), s.timerMap[timerId]? = some t →
    ∃ w, (s.handlers.filter fun w => w.timerId = timerId) = [w] ∧ w.timer = t.timer ∧
      w.expiry = t.expiresAt ∧ w.state ≠ .aborted
  ids : (s.created.map Creation.timerId).Nodup
  notAfter : ∀ c ∈ s.created, ¬ After .left .posted (s.history c.timerId)
  once : ∀ c ∈ s.created, c.repeats = false → (s.history c.timerId).count .posted ≤ 1
  schedule : ∀ c ∈ s.created, ∀ t, s.timerMap[c.timerId]? = some t →
    t.expiresAt = c.deadline + (s.history c.timerId).count .posted * c.interval

/-- Between the calls, every timer in `timerMap` has a handler. -/
structure Armed (s : CETimerUtils) : Prop where
  sound : Sound s
  idle : s.creating = .idle
  armed : ∀ k, (s.view k).entry.isSome → (s.view k).waits ≠ []

theorem armed_init : Armed init := by
  refine ⟨sound_init, rfl, fun k hentry => ?_⟩
  simp [view, init] at hentry

theorem armed_of_viewStep {inTime : Prop} {k : ℕ} {v v' : View} (hstep : ViewStep inTime k v v')
    (hok : v.Ok) (hstage : v.stage = .fresh ∨ v.stage = .issued)
    (h : v.entry.isSome → v.waits ≠ []) : v'.entry.isSome → v'.waits ≠ [] := by
  cases hstep with
  | stay => exact h
  | construct => exact h
  | asyncWait => simp
  | emplace t interval hregistered =>
      rcases hstage with hfresh | hissued
      · rw [hfresh] at hregistered
        cases hregistered
      · rw [hissued] at hregistered
        cases hregistered
  | expire => simp
  | ignore w hw hwait hnone =>
      rcases hnone with haborted | hnone
      · intro hentry
        obtain ⟨t, ht⟩ := Option.isSome_iff_exists.mp hentry
        obtain ⟨c, _, hissued⟩ := hok.issued (hok.stage_of_entry ht)
        exact absurd haborted (hissued.armed t ht w hw).2
      · simp [hnone]
  | once => simp
  | again => simp
  | clear => simp
  | clearAgain => exact h
  | run => exact h

theorem Armed.of_viewStep {s s' : CETimerUtils} (h : Armed s) (hgrounded : Grounded s')
    (hidle : s'.creating = .idle) (hstep : ∀ k, ViewStep False k (s.view k) (s'.view k)) :
    Armed s' := by
  refine ⟨⟨hgrounded, fun k => ok_step (hstep k) (h.sound.ok k)⟩, hidle, fun k => ?_⟩
  refine armed_of_viewStep (hstep k) (h.sound.ok k) ?_ (h.armed k)
  simp only [view, stage, h.idle]
  split_ifs
  · exact Or.inr rfl
  · exact Or.inl rfl

theorem Armed.createTimer {s : CETimerUtils} (h : Armed s) (interval : Int) (repeats : Bool)
    (callback : ℕ) : Armed (s.createTimer interval repeats callback) := by
  have hgrounded := h.sound.grounded.construct h.idle interval repeats callback
  have hregistered := hgrounded.asyncWait rfl
  have hview : (s.createTimer interval repeats callback).view =
      Function.update s.view s.created.length { s.view s.created.length with
        creation := some ⟨s.timerCounter, interval, repeats, callback, s.now + interval⟩
        stage := .issued
        entry := some ((s.view s.created.length).entry.getD
          ⟨s.created.length, s.now + interval, repeats, callback⟩)
        waits := (s.view s.created.length).waits ++
          [⟨s.created.length, s.now + interval, s.created.length, interval, .waiting⟩] } := by
    rw [CETimerUtils.createTimer, view_increment rfl, view_emplace hregistered rfl,
      view_asyncWait hgrounded rfl, view_construct s h.idle]
    simp only [Function.update_idem, Function.update_self]
  have hsteps : ∀ k, ((s.createTimer interval repeats callback).view k).Ok := by
    intro k
    have hconstruct := ok_step (@viewStep_construct False s h.idle interval repeats callback k)
      (h.sound.ok k)
    have hasync := ok_step (@viewStep_asyncWait False _ hgrounded _ _ rfl k) hconstruct
    exact ok_step (@viewStep_emplace False _ hregistered _ _ rfl k) hasync
  refine ⟨⟨(hregistered.emplace rfl).increment rfl, hsteps⟩, rfl, fun k => ?_⟩
  rw [hview]
  by_cases hk : k = s.created.length
  · subst hk
    rw [Function.update_self]
    simp
  · rw [Function.update_of_ne hk]
    exact h.armed k

theorem cancelTimer_creating (s : CETimerUtils) (timerId : Int) :
    (s.cancelTimer timerId).creating = s.creating := by
  rw [cancelTimer]
  split <;> rfl

theorem clear_creating (s : CETimerUtils) (timerId : Int) :
    (s.clear timerId).creating = s.creating := by
  rw [clear]
  split_ifs <;> exact cancelTimer_creating s timerId

theorem fire_creating (s : CETimerUtils) (w : Wait) : (s.fire w).creating = s.creating := by
  rw [fire, onTimerFire]
  split_ifs
  · rfl
  · split
    · rfl
    · split_ifs
      · rfl
      · rw [cancelTimer_creating]
        rfl

theorem armed_step (s : CETimerUtils) (e : TableEvent) (s' : CETimerUtils) (h : Armed s)
    (hstep : tableStep s e = some s') : Armed s' := by
  cases e with
  | createTimer interval repeats callback =>
      rw [tableStep] at hstep
      split_ifs at hstep
      cases hstep
      exact h.createTimer interval repeats callback
  | cancelTimer timerId =>
      cases hstep
      exact h.of_viewStep (h.sound.grounded.clear timerId) ((clear_creating s timerId).trans h.idle)
        (viewStep_clear h.sound.grounded h.idle False.elim)
  | tick milliseconds =>
      cases hstep
      exact h.of_viewStep (h.sound.grounded.of_same rfl rfl rfl h.sound.grounded.handlers
        h.sound.grounded.entries) h.idle fun k => .stay _
  | expire w =>
      rw [tableStep] at hstep
      split_ifs at hstep with hok
      cases hstep
      exact h.of_viewStep (h.sound.grounded.expire hok.1) h.idle (viewStep_expire hok.1 hok.2.1)
  | onTimerFire w =>
      rw [tableStep] at hstep
      split_ifs at hstep with hok
      cases hstep
      exact h.of_viewStep (h.sound.grounded.fire w) ((fire_creating s w).trans h.idle)
        (viewStep_fire h.sound.grounded hok.1 hok.2)

namespace Armed

variable {s : CETimerUtils}

theorem issued (h : Armed s) {k : ℕ} {c : Creation} (hc : s.created[k]? = some c) :
    Issued c (s.view k) := by
  have hlt := (List.getElem?_eq_some_iff.mp hc).1
  have hstage : (s.view k).stage = .issued := by
    simp only [view, stage, h.idle, hlt, if_true]
  obtain ⟨c', hc', hissued⟩ := (h.sound.ok k).issued hstage
  cases hc.symm.trans hc'
  exact hissued

theorem of_entry (h : Armed s) {timerId : Int} {t : TimerStruct}
    (hentry : s.timerMap[timerId]? = some t) :
    timerId = t.timer ∧ (s.view t.timer).entry = some t ∧
      ∃ c, s.created[t.timer]? = some c ∧ Issued c (s.view t.timer) := by
  obtain ⟨hid, hlt⟩ := h.sound.grounded.entries timerId t hentry
  have hc := List.getElem?_eq_getElem hlt
  refine ⟨hid, ?_, _, hc, h.issued hc⟩
  rw [hid] at hentry
  exact hentry

theorem nodup_ids (h : Armed s) : (s.created.map Creation.timerId).Nodup := by
  have hids : s.created.map Creation.timerId = (List.range s.created.length).map Int.ofNat := by
    apply List.ext_getElem
    · simp
    · intro k hk hk'
      rw [List.getElem_map, List.getElem_map, List.getElem_range]
      rw [List.length_map] at hk
      exact h.sound.grounded.ids k _ (List.getElem?_eq_getElem hk)
  rw [hids]
  exact List.Nodup.map (fun _ _ heq => Int.ofNat.inj heq) List.nodup_range

theorem tableInvariant (h : Armed s) : s.TableInvariant := by
  refine ⟨?_, ?_, h.nodup_ids, ?_, ?_, ?_⟩
  · intro timerId
    constructor
    · intro hsome
      obtain ⟨t, hentry⟩ := Option.isSome_iff_exists.mp hsome
      obtain ⟨rfl, hview, c, hc, hissued⟩ := h.of_entry hentry
      refine ⟨c, List.mem_of_getElem? hc, h.sound.grounded.ids _ c hc, ?_⟩
      exact hissued.key.mp (by rw [hview]; rfl)
    · rintro ⟨c, hc, rfl, hhistory⟩
      obtain ⟨k, hk⟩ := List.getElem?_of_mem hc
      rw [h.sound.grounded.ids k c hk] at hhistory ⊢
      exact (h.issued hk).key.mpr hhistory
  · intro timerId t hentry
    obtain ⟨rfl, hview, c, hc, hissued⟩ := h.of_entry hentry
    obtain ⟨w, hw⟩ := List.exists_mem_of_ne_nil _ (h.armed t.timer (by rw [hview]; rfl))
    have hwaits := eq_singleton_of_mem hissued.single hw
    have hsame : (s.handlers.filter fun w => w.timerId = (t.timer : Int)) =
        s.handlers.filter fun w => w.timer = t.timer := by
      apply List.filter_congr
      intro w' hw'
      simp only [h.sound.grounded.handlers w' hw', Int.ofNat_inj]
    refine ⟨w, hsame.trans hwaits, ?_, hissued.armed t hview w hw⟩
    exact of_decide_eq_true (List.mem_filter.mp hw).2
  · intro c hc
    obtain ⟨k, hk⟩ := List.getElem?_of_mem hc
    rw [h.sound.grounded.ids k c hk]
    exact (h.issued hk).notAfter
  · intro c hc
    obtain ⟨k, hk⟩ := List.getElem?_of_mem hc
    rw [h.sound.grounded.ids k c hk]
    exact (h.issued hk).once
  · intro c hc t hentry
    obtain ⟨k, hk⟩ := List.getElem?_of_mem hc
    rw [h.sound.grounded.ids k c hk] at hentry ⊢
    exact ((h.issued hk).entry t hentry).2.2

end Armed

/-- The invariant holds in every state, whatever the order of the steps. -/
theorem tableInvariant_of_run (es : List TableEvent) (s : CETimerUtils)
    (hrun : run tableStep init es = some s) : s.TableInvariant :=
  (run_invariant armed_step armed_init hrun).tableInvariant

/-- A repeating timer fires twice, a second timer fires, and a third one is cancelled
while its handler is ready. -/
def threeTimers : List TableEvent :=
  [.createTimer 5 true 7, .createTimer 3 false 8, .createTimer 4 false 9, .tick 5,
    .expire ⟨0, 5, 0, 5, .waiting⟩, .expire ⟨2, 4, 2, 4, .waiting⟩, .cancelTimer 2,
    .onTimerFire ⟨0, 5, 0, 5, .ready⟩, .expire ⟨1, 3, 1, 3, .waiting⟩,
    .onTimerFire ⟨1, 3, 1, 3, .ready⟩, .onTimerFire ⟨2, 4, 2, 4, .ready⟩, .tick 9,
    .expire ⟨0, 10, 0, 5, .waiting⟩, .onTimerFire ⟨0, 10, 0, 5, .ready⟩]

theorem tableInvariant_threeTimers :
    ∃ s, run tableStep init threeTimers = some s ∧ s.TableInvariant ∧
      s.timerMap.toList = [(0, ⟨0, 15, true, 7⟩)] ∧ s.handlers = [⟨0, 15, 0, 5, .waiting⟩] ∧
      s.queue = [.callJsFunction 0 7, .callJsFunction 1 8, .callJsFunction 0 7] :=
  ⟨_, rfl, tableInvariant_of_run threeTimers _ rfl, by decide, by decide, by decide⟩

end CETimerUtils

end Timer

end UnifyFramework
