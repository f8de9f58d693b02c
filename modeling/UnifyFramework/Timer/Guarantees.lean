import UnifyFramework.Timer.Lifetime

/-!
# What a job can rely on

A callback that is in the queue runs, whatever happens to its timer. So a cleared timer
is silent only if no callback of it was queued when it was cleared. A timer that does
not repeat runs its callback once at most, in any case.

`createTimer` registers the handler before it makes the entry. A handler that runs in
between finds nothing and is lost; every later one does its work.
-/

namespace UnifyFramework

namespace Timer

open Transition

namespace CETimerUtils

structure Sound (s : CETimerUtils) : Prop where
  grounded : Grounded s
  ok : ∀ k, (s.view k).Ok

theorem sound_init : Sound init := by
  refine ⟨grounded_init, fun k => ?_⟩
  simp [view, stage, init, View.Ok, View.Untouched]

theorem sound_step (s : CETimerUtils) (e : TimerEvent) (s' : CETimerUtils) (h : Sound s)
    (hstep : step s e = some s') : Sound s' := by
  obtain ⟨hgrounded, hviews⟩ := step_simulates h.grounded hstep (fun h : False => h.elim)
  exact ⟨hgrounded, fun k => ok_step (hviews k) (h.ok k)⟩

namespace Sound

variable {s : CETimerUtils}

/-- A created timer has its entry behind it, or nothing has happened to it. -/
theorem issued_or_untouched (h : Sound s) {k : ℕ} {c : Creation} (hc : s.created[k]? = some c) :
    Issued c (s.view k) ∨ (s.view k).Untouched := by
  have hok := h.ok k
  cases hstage : (s.view k).stage with
  | issued =>
      obtain ⟨c', hc', hissued⟩ := hok.issued hstage
      cases hc.symm.trans hc'
      exact Or.inl hissued
  | _ =>
      rw [View.Ok, hstage] at hok
      exact Or.inr hok.1

theorem count_ran_le_one (h : Sound s) {c : Creation} (hc : c ∈ s.created)
    (hrepeats : c.repeats = false) : (s.history c.timerId).count .ran ≤ 1 := by
  obtain ⟨k, hk⟩ := List.getElem?_of_mem hc
  rw [h.grounded.ids k c hk]
  change (s.view k).history.count .ran ≤ 1
  rcases h.issued_or_untouched hk with hissued | huntouched
  · have hbalance := hissued.balance
    have honce := hissued.once hrepeats
    omega
  · simp [huntouched.2.2]

end Sound

/-- In every run, also one in which timers are cleared too late. -/
theorem ran_once_of_run (es : List TimerEvent) (s : CETimerUtils)
    (hrun : run step init es = some s) {c : Creation} (hc : c ∈ s.created)
    (hrepeats : c.repeats = false) : (s.history c.timerId).count .ran ≤ 1 :=
  (run_invariant sound_step sound_init hrun).count_ran_le_one hc hrepeats

/-- No callback is run after its timer was cleared, and the callback of a timer that does
not repeat is run once at most. -/
structure Silenced (s : CETimerUtils) : Prop where
  cleared : ∀ c ∈ s.created, ¬ After .cleared .ran (s.history c.timerId)
  once : ∀ c ∈ s.created, c.repeats = false → (s.history c.timerId).count .ran ≤ 1

theorem quiet_init (k : ℕ) : (init.view k).Quiet :=
  ⟨(fun h => by cases h), not_after_nil _ _⟩

theorem quiet_step_of_clearedInTime (s : CETimerUtils) (e : TimerEvent) (s' : CETimerUtils)
    (h : Sound s ∧ ∀ k, (s.view k).Quiet) (htime : ClearedInTime s e)
    (hstep : step s e = some s') : Sound s' ∧ ∀ k, (s'.view k).Quiet := by
  obtain ⟨_, hviews⟩ := step_simulates h.1.grounded hstep (fun _ : True => htime)
  exact ⟨sound_step s e s' h.1 hstep, fun k => quiet_step (hviews k) (h.1.ok k) (h.2 k)⟩

theorem silenced_of_quiet {s : CETimerUtils} (h : Sound s) (hquiet : ∀ k, (s.view k).Quiet) :
    s.Silenced := by
  refine ⟨fun c hc => ?_, fun c hc hrepeats => h.count_ran_le_one hc hrepeats⟩
  obtain ⟨k, hk⟩ := List.getElem?_of_mem hc
  rw [h.grounded.ids k c hk]
  exact (hquiet k).2

/-- In every run in which no callback of a timer is queued when the timer is cleared. -/
theorem silenced_of_clearedInTime (es : List TimerEvent) (s : CETimerUtils)
    (htime : Along step ClearedInTime init es) (hrun : run step init es = some s) :
    s.Silenced := by
  obtain ⟨hsound, hquiet⟩ :=
    run_invariant_along quiet_step_of_clearedInTime ⟨sound_init, quiet_init⟩ htime hrun
  exact silenced_of_quiet hsound hquiet

instance decidableClearedInTime (s : CETimerUtils) : (e : TimerEvent) → Decidable (s.ClearedInTime e)
  | .clear timerId =>
      inferInstanceAs (Decidable (∀ job ∈ s.queue, job.timerId? ≠ some timerId))
  | .post | .begin | .finish | .construct _ _ _ | .asyncWait | .emplace | .increment | .tick _
  | .expire _ | .fire _ => inferInstanceAs (Decidable True)

def repeatingTimer : List TimerEvent :=
  [.post, .begin, .construct 5 true 7, .asyncWait, .emplace, .increment, .finish, .post, .tick 5,
    .expire ⟨0, 5, 0, 5, .waiting⟩, .fire ⟨0, 5, 0, 5, .ready⟩]

def clearedByCallback : List TimerEvent :=
  repeatingTimer ++ [.begin, .finish, .begin, .clear 0, .finish]

theorem silenced_clearedByCallback :
    ∃ s, run step init clearedByCallback = some s ∧ s.Silenced ∧
      s.history 0 = [.posted, .ran, .left, .cleared] :=
  ⟨_, rfl, silenced_of_clearedInTime clearedByCallback _ (by decide) rfl, by decide⟩

def clearedTooLate : List TimerEvent := repeatingTimer ++ [.begin, .clear 0, .finish, .begin]

/-- The callback runs although its timer was cleared by an earlier job. -/
theorem not_silenced_clearedTooLate :
    ∃ s, run step init clearedTooLate = some s ∧ ¬ s.Silenced ∧
      s.history 0 = [.posted, .left, .cleared, .ran] :=
  ⟨_, rfl, fun h => h.cleared ⟨0, 5, true, 7, 5⟩ (by decide) (by decide), by decide⟩

/-- The handler `w` of the timer `c` has done its work: the callback is posted, and the
timer leaves `timerMap` or is armed again for the next time. -/
structure Served (s s' : CETimerUtils) (w : Wait) (c : Creation) : Prop where
  posted : s'.queue = s.queue ++ [.callJsFunction w.timerId c.callback]
  once : c.repeats = false → s'.timerMap[w.timerId]? = none
  again : c.repeats = true →
    (∃ t, s'.timerMap[w.timerId]? = some t ∧ t.expiresAt = w.expiry + c.interval) ∧
      ⟨w.timer, w.expiry + c.interval, w.timerId, c.interval, .waiting⟩ ∈ s'.handlers

/-- The timer whose handler `createTimer` has registered without having made the entry. -/
def registering? (s : CETimerUtils) : Option ℕ :=
  match s.creating with
  | .registered t _ => some t.timer
  | _ => none

theorem stage_of_registering {s : CETimerUtils} {timer : ℕ} (h : s.registering? = some timer) :
    (s.view timer).stage ≠ .issued := by
  rw [registering?] at h
  split at h
  · next t interval hcreating =>
      cases h
      simp [view, stage, hcreating]
  · cases h

theorem registering_of_stage {s : CETimerUtils} {timer : ℕ} {t : TimerStruct} {interval : Int}
    (h : (s.view timer).stage = .registered t interval) : s.registering? = some timer := by
  simp only [view, stage] at h
  split at h
  · split_ifs at h
  · next t' interval' hcreating =>
      split_ifs at h with htimer
      rw [registering?, hcreating, htimer]
  · split_ifs at h

/-- A handler that finds no entry leaves everything as it is. -/
theorem not_served_of_entry_eq_none {s : CETimerUtils} {w : Wait}
    (hentry : s.timerMap[w.timerId]? = none) (c : Creation) : ¬ Served s (s.fire w) w c := by
  intro h
  have hqueue : (s.fire w).queue = s.queue := by
    rw [fire, onTimerFire, hentry]
    split_ifs <;> rfl
  have hposted := h.posted
  rw [hqueue] at hposted
  exact absurd (congrArg List.length hposted) (by simp)

theorem served_of_entry {s : CETimerUtils} {w : Wait} {c : Creation} {t : TimerStruct}
    (hready : w.state = .ready) (hentry : s.timerMap[w.timerId]? = some t)
    (htimer : t.timer = w.timer) (hexpiry : w.expiry = t.expiresAt)
    (hinterval : w.interval = c.interval) (hrepeats : t.repeats = c.repeats)
    (hcallback : t.callback = c.callback) : Served s (s.fire w) w c := by
  have herror : ¬ (decide (w.state = .aborted) = true) := by simp [hready]
  have hkey : (callJsFunction { s with handlers := s.handlers.erase w } w.timerId
      t.callback).timerMap[w.timerId]? = some t := hentry
  rw [fire, onTimerFire, if_neg herror]
  simp only [hentry]
  cases hr : t.repeats with
  | true =>
      rw [if_pos rfl]
      refine ⟨by rw [← hcallback]; rfl, fun hc => ?_, fun _ => ⟨?_, ?_⟩⟩
      · rw [← hrepeats, hr] at hc
        cases hc
      · refine ⟨{ t with expiresAt := t.expiresAt + w.interval }, ?_, ?_⟩
        · exact Std.ExtTreeMap.getElem?_insert_self
        · rw [hexpiry, ← hinterval]
      · rw [hexpiry, ← hinterval, ← htimer]
        exact List.mem_append_right _ List.mem_cons_self
  | false =>
      rw [if_neg Bool.false_ne_true, cancelTimer]
      simp only [hkey]
      refine ⟨by rw [← hcallback]; rfl, fun _ => ?_, fun hc => ?_⟩
      · exact Std.ExtTreeMap.getElem?_erase_self
      · rw [← hrepeats, hr] at hc
        cases hc

/-- A handler that runs without an error, of a timer that is not cleared, does its work. -/
def ServedAt (s : CETimerUtils) : TimerEvent → Prop
  | .fire w => w.state = .ready → .cleared ∉ s.history w.timerId →
      ∃ c ∈ s.created, c.timerId = w.timerId ∧ Served s (s.fire w) w c
  | _ => True

/-- No handler runs without an error before the entry of its timer has been made. -/
def FiredInTime (s : CETimerUtils) : TimerEvent → Prop
  | .fire w => w.state = .ready → s.registering? ≠ some w.timer
  | _ => True

/-- A handler of a timer in `timerMap`, or of one that is cleared. -/
theorem servedAt_of_issued {s : CETimerUtils} (h : Sound s) {w : Wait} (hw : w ∈ s.handlers)
    (hstage : (s.view w.timer).stage = .issued) : ServedAt s (.fire w) := by
  intro hready hcleared
  have hid := h.grounded.handlers w hw
  have hmem : w ∈ (s.view w.timer).waits := List.mem_filter.mpr ⟨hw, by simp⟩
  obtain ⟨c, hc, hissued⟩ := (h.ok w.timer).issued hstage
  have hcreated : s.created[w.timer]? = some c := hc
  refine ⟨c, List.mem_of_getElem? hcreated, by rw [h.grounded.ids _ c hcreated, hid], ?_⟩
  cases hentry : s.timerMap[w.timerId]? with
  | none =>
      rw [hid] at hentry hcleared
      exact absurd (hissued.orphan hentry (List.ne_nil_of_mem hmem)) hcleared
  | some t =>
      have hview : (s.view w.timer).entry = some t := by
        rw [hid] at hentry
        exact hentry
      have htimer := (h.grounded.entries _ t hentry).1
      rw [hid] at htimer
      obtain ⟨hrepeats, hcallback, _⟩ := hissued.entry t hview
      exact served_of_entry hready hentry (Int.ofNat_inj.mp htimer).symm
        (hissued.armed t hview w hmem).1 (hissued.intervals w hmem) hrepeats hcallback

theorem not_servedAt_of_registered {s : CETimerUtils} (h : Sound s) {w : Wait}
    (hw : w ∈ s.handlers) (hready : w.state = .ready) {t : TimerStruct} {interval : Int}
    (hstage : (s.view w.timer).stage = .registered t interval) : ¬ ServedAt s (.fire w) := by
  have hid := h.grounded.handlers w hw
  have hview := h.ok w.timer
  rw [View.Ok, hstage] at hview
  obtain ⟨hentry, _, hhistory⟩ := hview.1
  have hnone : s.timerMap[w.timerId]? = none := by
    rw [hid]
    exact hentry
  have hcleared : .cleared ∉ s.history w.timerId := by
    rw [hid]
    change Note.cleared ∉ (s.view w.timer).history
    simp [hhistory]
  intro hserved
  obtain ⟨c, _, _, hc⟩ := hserved hready hcleared
  exact not_served_of_entry_eq_none hnone c hc

theorem servedAt_iff_firedInTime {s s' : CETimerUtils} {e : TimerEvent} (h : Sound s)
    (hstep : step s e = some s') : ServedAt s e ↔ FiredInTime s e := by
  cases e with
  | fire w =>
      rw [step] at hstep
      split_ifs at hstep with hok
      have hmem : w ∈ (s.view w.timer).waits := List.mem_filter.mpr ⟨hok.1, by simp⟩
      rcases (h.ok w.timer).stage_of_wait hmem with hstage | ⟨t, interval, hstage⟩
      · exact iff_of_true (servedAt_of_issued h hok.1 hstage)
          fun _ hreg => stage_of_registering hreg hstage
      · by_cases hready : w.state = .ready
        · exact iff_of_false (not_servedAt_of_registered h hok.1 hready hstage)
            fun hin => hin hready (registering_of_stage hstage)
        · exact iff_of_true (fun hr => absurd hr hready) fun hr => absurd hr hready
  | _ => exact Iff.rfl

/-- In a run, every handler does its work exactly if none of them runs before the entry of
its timer has been made. -/
theorem served_iff_firedInTime (es : List TimerEvent) (s : CETimerUtils)
    (hrun : run step init es = some s) :
    Along step ServedAt init es ↔ Along step FiredInTime init es :=
  along_iff_along (I := Sound) (fun s e s' h hstep =>
    ⟨sound_step s e s' h hstep, servedAt_iff_firedInTime h hstep⟩) sound_init hrun

instance decidableFiredInTime (s : CETimerUtils) : (e : TimerEvent) → Decidable (s.FiredInTime e)
  | .fire w => inferInstanceAs (Decidable (w.state = .ready → s.registering? ≠ some w.timer))
  | .post | .begin | .finish | .construct _ _ _ | .asyncWait | .emplace | .increment | .clear _
  | .tick _ | .expire _ => inferInstanceAs (Decidable True)

/-- A repeating timer is due as soon as it is created, and the timer thread runs its
handler before the end of `createTimer`, but after the entry is made. -/
def dueAtOnce : List TimerEvent :=
  [.post, .begin, .construct 0 true 7, .asyncWait, .expire ⟨0, 0, 0, 0, .waiting⟩, .emplace,
    .fire ⟨0, 0, 0, 0, .ready⟩, .increment]

theorem served_dueAtOnce :
    ∃ s, run step init dueAtOnce = some s ∧ Along step ServedAt init dueAtOnce ∧
      s.queue = [.callJsFunction 0 7] ∧ s.handlers = [⟨0, 0, 0, 0, .waiting⟩] :=
  ⟨_, rfl, (served_iff_firedInTime dueAtOnce _ rfl).mpr (by decide), by decide, by decide⟩

def dueTooEarly : List TimerEvent :=
  [.post, .begin, .construct 0 false 7, .asyncWait, .expire ⟨0, 0, 0, 0, .waiting⟩,
    .fire ⟨0, 0, 0, 0, .ready⟩, .emplace, .increment, .finish]

/-- The callback is not posted, and the timer stays in `timerMap` without a handler. -/
theorem not_served_dueTooEarly :
    ∃ s, run step init dueTooEarly = some s ∧ ¬ Along step ServedAt init dueTooEarly ∧
      s.history 0 = [] ∧ s.queue = [] ∧ s.handlers = [] ∧
      s.timerMap[(0 : Int)]? = some ⟨0, 0, false, 7⟩ := by
  refine ⟨_, rfl, fun h => ?_, by decide, by decide, by decide, by decide⟩
  -- the sixth step is the handler's
  obtain ⟨_, h⟩ := h
  obtain ⟨c, _, _, hserved⟩ :=
    ((((((h _ rfl).2 _ rfl).2 _ rfl).2 _ rfl).2 _ rfl).1 rfl (by decide))
  exact not_served_of_entry_eq_none (by decide) c hserved

end CETimerUtils

end Timer

end UnifyFramework
