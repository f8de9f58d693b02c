import UnifyFramework.Timer.Simulation

/-!
# The life of a timer

What holds of a timer in every state, first for its view: while `createTimer` runs it has
at most one handler and nothing else; later it is in `timerMap` until it is cleared or,
if it does not repeat, has fired, and its handler is there unless it ran too early.
-/

namespace UnifyFramework

namespace Timer

open Transition

structure Issued (c : Creation) (v : View) : Prop where
  intervals : ∀ w ∈ v.waits, w.interval = c.interval
  single : v.waits.length ≤ 1
  armed : ∀ t, v.entry = some t → ∀ w ∈ v.waits, w.expiry = t.expiresAt ∧ w.state ≠ .aborted
  orphan : v.entry = none → v.waits ≠ [] → .cleared ∈ v.history
  entry : ∀ t, v.entry = some t → t.repeats = c.repeats ∧ t.callback = c.callback ∧
    t.expiresAt = c.deadline + v.history.count .posted * c.interval
  key : v.entry.isSome ↔ .cleared ∉ v.history ∧ (c.repeats = true ∨ .posted ∉ v.history)
  left : .left ∈ v.history → v.entry = none
  notAfter : ¬ After .left .posted v.history
  once : c.repeats = false → v.history.count .posted ≤ 1
  balance : v.jobs.length + v.history.count .ran = v.history.count .posted

/-- The `TimerStruct` is the one the creation asked for. -/
def Creation.Made (c : Creation) (t : TimerStruct) (interval : Int) : Prop :=
  t.repeats = c.repeats ∧ t.callback = c.callback ∧ t.expiresAt = c.deadline ∧
    interval = c.interval

def View.Untouched (v : View) : Prop :=
  v.entry = none ∧ v.jobs = [] ∧ v.history = []

def View.Ok (v : View) : Prop :=
  match v.stage with
  | .fresh => v.Untouched ∧ v.waits = []
  | .constructed t interval =>
      v.Untouched ∧ v.waits = [] ∧ ∃ c, v.creation = some c ∧ c.Made t interval
  | .registered t interval =>
      v.Untouched ∧ v.waits.length ≤ 1 ∧
        (∀ w ∈ v.waits, w.interval = interval ∧ w.expiry = t.expiresAt ∧ w.state ≠ .aborted) ∧
        ∃ c, v.creation = some c ∧ c.Made t interval
  | .issued => ∃ c, v.creation = some c ∧ Issued c v

theorem View.Ok.issued {v : View} (h : v.Ok) (hstage : v.stage = .issued) :
    ∃ c, v.creation = some c ∧ Issued c v := by
  rwa [View.Ok, hstage] at h

theorem Issued.ok {c : Creation} {v : View} (h : Issued c v) (hc : v.creation = some c)
    (hstage : v.stage = .issued) : v.Ok := by
  rw [View.Ok, hstage]
  exact ⟨c, hc, h⟩

theorem eq_singleton_of_mem {w : Wait} {waits : List Wait} (hsingle : waits.length ≤ 1)
    (hw : w ∈ waits) : waits = [w] := by
  match waits, hsingle, hw with
  | [w'], _, hw => rw [List.mem_singleton.mp hw]

namespace Issued

variable {c : Creation} {v : View}

/-- The handler that is taken out was the only one. -/
theorem erase_eq_nil (h : Issued c v) {w : Wait} (hw : w ∈ v.waits) : v.waits.erase w = [] := by
  rw [eq_singleton_of_mem h.single hw, List.erase_cons_head]

theorem expire (h : Issued c v) {w : Wait} (hw : w ∈ v.waits) :
    Issued c { v with waits := v.waits.erase w ++ [{ w with state := .ready }] } := by
  rw [h.erase_eq_nil hw, List.nil_append]
  refine ⟨?_, Nat.le_refl _, ?_, ?_, h.entry, h.key, h.left, h.notAfter, h.once, h.balance⟩
  · intro w' hw'
    rw [List.mem_singleton.mp hw']
    exact h.intervals w hw
  · intro t ht w' hw'
    rw [List.mem_singleton.mp hw']
    exact ⟨(h.armed t ht w hw).1, by simp⟩
  · intro hnone _
    exact h.orphan hnone (List.ne_nil_of_mem hw)

theorem ignore (h : Issued c v) {w : Wait} (hw : w ∈ v.waits) :
    Issued c { v with waits := v.waits.erase w } := by
  rw [h.erase_eq_nil hw]
  exact ⟨by simp, Nat.zero_le _, by simp, by simp, h.entry, h.key, h.left, h.notAfter, h.once,
    h.balance⟩

/-- A timer that does not repeat and is in `timerMap` has not fired. -/
theorem count_posted_eq_zero (h : Issued c v) {t : TimerStruct} (ht : v.entry = some t)
    (hrepeats : c.repeats = false) : v.history.count .posted = 0 := by
  rcases (h.key.mp (by rw [ht]; rfl)).2 with hc | hposted
  · rw [hrepeats] at hc
    cases hc
  · exact List.count_eq_zero.mpr hposted

theorem not_left (h : Issued c v) {t : TimerStruct} (ht : v.entry = some t) :
    .left ∉ v.history := by
  intro hleft
  rw [h.left hleft] at ht
  cases ht

theorem fire_once (h : Issued c v) {w : Wait} (hw : w ∈ v.waits) {t : TimerStruct}
    (ht : v.entry = some t) (hrepeats : t.repeats = false) (k : ℕ) (job : Job) :
    Issued c { v with
      entry := none
      waits := abort k (v.waits.erase w)
      jobs := v.jobs ++ [job]
      history := v.history ++ [.posted] ++ [.left] } := by
  have herase : abort k (v.waits.erase w) = [] := by
    rw [h.erase_eq_nil hw]
    rfl
  have hrepeats' : c.repeats = false := by
    rw [← (h.entry t ht).1]
    exact hrepeats
  have hcount := h.count_posted_eq_zero ht hrepeats'
  have hbalance := h.balance
  rw [herase]
  refine ⟨by simp, Nat.zero_le _, by simp, by simp, by simp, ?_, fun _ => rfl, ?_, ?_, ?_⟩
  · simp [hrepeats']
  · refine not_after_concat ?_ (by decide)
    rw [after_concat_iff]
    rintro (hafter | ⟨hleft, _⟩)
    · exact h.notAfter hafter
    · exact h.not_left ht hleft
  · intro _
    simp [List.count_append, hcount]
  · simp [List.count_append]
    omega

theorem fire_again (h : Issued c v) {w : Wait} (hw : w ∈ v.waits) {t : TimerStruct}
    (ht : v.entry = some t) (hrepeats : t.repeats = true) (k : ℕ) (job : Job) :
    Issued c { v with
      entry := some { t with expiresAt := t.expiresAt + w.interval }
      waits := abort k (v.waits.erase w) ++
        [⟨k, t.expiresAt + w.interval, k, w.interval, .waiting⟩]
      jobs := v.jobs ++ [job]
      history := v.history ++ [.posted] } := by
  have herase : abort k (v.waits.erase w) = [] := by
    rw [h.erase_eq_nil hw]
    rfl
  obtain ⟨hr, hcallback, hexpires⟩ := h.entry t ht
  have hcleared := (h.key.mp (by rw [ht]; rfl)).1
  have hinterval := h.intervals w hw
  have hbalance := h.balance
  rw [herase]
  refine ⟨?_, Nat.le_refl _, ?_, by simp, ?_, ?_, ?_, ?_, ?_, ?_⟩
  · intro w' hw'
    rw [List.mem_singleton.mp hw']
    exact hinterval
  · intro t' ht' w' hw'
    cases ht'
    rw [List.mem_singleton.mp hw']
    exact ⟨rfl, by simp⟩
  · intro t' ht'
    cases ht'
    refine ⟨hr, hcallback, ?_⟩
    simp only [List.count_append, List.count_singleton_self, hexpires, hinterval]
    push_cast
    rw [Int.add_mul, Int.one_mul, Int.add_assoc]
  · simp [hcleared, ← hr, hrepeats]
  · intro hleft
    rcases List.mem_append.mp hleft with hold | hnew
    · exact absurd hold (h.not_left ht)
    · cases List.mem_singleton.mp hnew
  · rw [after_concat_iff]
    rintro (hafter | ⟨hleft, _⟩)
    · exact h.notAfter hafter
    · exact h.not_left ht hleft
  · intro hc
    rw [← hr, hrepeats] at hc
    cases hc
  · simp [List.count_append]
    omega

theorem clear (h : Issued c v) (k : ℕ) :
    Issued c { v with
      entry := none
      waits := abort k v.waits
      history := v.history ++ [.left] ++ [.cleared] } := by
  have hbalance := h.balance
  refine ⟨?_, ?_, by simp, fun _ _ => by simp, by simp, by simp, fun _ => rfl, ?_, ?_, ?_⟩
  · intro w hw
    obtain ⟨w', hw', rfl⟩ := List.mem_map.mp hw
    split_ifs <;> exact h.intervals w' hw'
  · rw [abort, List.length_map]
    exact h.single
  · exact not_after_concat (not_after_concat h.notAfter (by decide)) (by decide)
  · intro hc
    simpa [List.count_append] using h.once hc
  · simpa [List.count_append] using hbalance

theorem clear_again (h : Issued c v) (hnone : v.entry = none) :
    Issued c { v with history := v.history ++ [.cleared] } := by
  refine ⟨h.intervals, h.single, ?_, fun _ _ => by simp, ?_, ?_, fun _ => hnone, ?_, ?_, ?_⟩
  · simp [hnone]
  · simp [hnone]
  · simp [hnone]
  · exact not_after_concat h.notAfter (by decide)
  · intro hc
    simpa [List.count_append] using h.once hc
  · simpa [List.count_append] using h.balance

theorem run (h : Issued c v) {job : Job} {rest : List Job} (hjobs : v.jobs = job :: rest) :
    Issued c { v with jobs := rest, history := v.history ++ [.ran] } := by
  have hbalance := h.balance
  rw [hjobs, List.length_cons] at hbalance
  refine ⟨h.intervals, h.single, h.armed, ?_, ?_, ?_, ?_, ?_, ?_, ?_⟩
  · intro hnone hwaits
    exact List.mem_append_left _ (h.orphan hnone hwaits)
  · simpa [List.count_append] using h.entry
  · simpa using h.key
  · simpa using h.left
  · exact not_after_concat h.notAfter (by decide)
  · intro hc
    simpa [List.count_append] using h.once hc
  · simp [List.count_append]
    omega

end Issued

/-- With `emplace` the timer is in `timerMap`; its handler may have run already. -/
theorem issued_of_registered {c : Creation} {v : View} {t : TimerStruct} {interval : Int}
    (huntouched : v.Untouched) (hsingle : v.waits.length ≤ 1)
    (hwaits : ∀ w ∈ v.waits, w.interval = interval ∧ w.expiry = t.expiresAt ∧ w.state ≠ .aborted)
    (hmade : c.Made t interval) :
    Issued c { v with stage := .issued, entry := some (v.entry.getD t) } := by
  obtain ⟨hentry, hjobs, hhistory⟩ := huntouched
  obtain ⟨hrepeats, hcallback, hexpires, rfl⟩ := hmade
  rw [hentry, Option.getD_none]
  refine ⟨fun w hw => (hwaits w hw).1, hsingle, ?_, by simp, ?_, ?_, ?_, ?_, ?_, ?_⟩
  · intro t' ht'
    cases ht'
    exact fun w hw => (hwaits w hw).2
  · intro t' ht'
    cases ht'
    simp [hrepeats, hcallback, hexpires, hhistory]
  · simp [hhistory]
  · simp [hhistory]
  · rw [hhistory]
    exact not_after_nil _ _
  · simp [hhistory]
  · simp [hhistory, hjobs]

namespace View.Ok

variable {v : View}

theorem stage_of_entry (h : v.Ok) {t : TimerStruct} (hentry : v.entry = some t) :
    v.stage = .issued := by
  cases hstage : v.stage with
  | issued => rfl
  | _ =>
      rw [View.Ok, hstage] at h
      simp [h.1.1] at hentry

theorem stage_of_job (h : v.Ok) {job : Job} {rest : List Job} (hjobs : v.jobs = job :: rest) :
    v.stage = .issued := by
  cases hstage : v.stage with
  | issued => rfl
  | _ =>
      rw [View.Ok, hstage] at h
      simp [h.1.2.1] at hjobs

theorem stage_of_wait (h : v.Ok) {w : Wait} (hw : w ∈ v.waits) :
    v.stage = .issued ∨ ∃ t interval, v.stage = .registered t interval := by
  cases hstage : v.stage with
  | issued => exact Or.inl rfl
  | registered t interval => exact Or.inr ⟨t, interval, rfl⟩
  | fresh =>
      rw [View.Ok, hstage] at h
      simp [h.2] at hw
  | constructed t interval =>
      rw [View.Ok, hstage] at h
      simp [h.2.1] at hw

theorem waits_eq (h : v.Ok) {t : TimerStruct} {interval : Int}
    (hstage : v.stage = .registered t interval) {w : Wait} (hw : w ∈ v.waits) :
    v.waits = [w] := by
  rw [View.Ok, hstage] at h
  exact eq_singleton_of_mem h.2.1 hw

end View.Ok

theorem ok_of_registered {v : View} (h : v.Ok) {t : TimerStruct} {interval : Int}
    (hstage : v.stage = .registered t interval) {waits : List Wait} (hlen : waits.length ≤ 1)
    (hwaits : ∀ w ∈ waits, ∃ w' ∈ v.waits, w.interval = w'.interval ∧ w.expiry = w'.expiry ∧
      (w.state = w'.state ∨ w.state = .ready)) : View.Ok { v with waits := waits } := by
  rw [View.Ok, hstage] at h
  obtain ⟨huntouched, _, hall, hmade⟩ := h
  rw [View.Ok, show View.stage { v with waits := waits } = .registered t interval from hstage]
  refine ⟨huntouched, hlen, ?_, hmade⟩
  intro w hw
  obtain ⟨w', hw', hinterval, hexpiry, hstate⟩ := hwaits w hw
  obtain ⟨hi, he, hs⟩ := hall w' hw'
  refine ⟨hinterval.trans hi, hexpiry.trans he, ?_⟩
  rcases hstate with hsame | hready
  · rw [hsame]
    exact hs
  · simp [hready]

theorem ok_step {inTime : Prop} {k : ℕ} {v v' : View} (hstep : ViewStep inTime k v v')
    (h : v.Ok) : v'.Ok := by
  cases hstep with
  | stay => exact h
  | construct c hfresh =>
      rw [View.Ok, hfresh] at h
      exact ⟨h.1, h.2, c, rfl, rfl, rfl, rfl, rfl⟩
  | asyncWait t interval hstage =>
      rw [View.Ok, hstage] at h
      obtain ⟨huntouched, hwaits, hmade⟩ := h
      refine ⟨huntouched, ?_, ?_, hmade⟩
      · simp [hwaits]
      · simp [hwaits]
  | emplace t interval hstage =>
      rw [View.Ok, hstage] at h
      obtain ⟨huntouched, hsingle, hwaits, c, hc, hmade⟩ := h
      exact ⟨c, hc, issued_of_registered huntouched hsingle hwaits hmade⟩
  | expire w hw hstate =>
      rcases h.stage_of_wait hw with hstage | ⟨t, interval, hstage⟩
      · obtain ⟨c, hc, hissued⟩ := h.issued hstage
        exact (hissued.expire hw).ok hc hstage
      · have hwaits := h.waits_eq hstage hw
        apply ok_of_registered h hstage
        · simp [hwaits]
        · simp [hwaits]
  | ignore w hw _ _ =>
      rcases h.stage_of_wait hw with hstage | ⟨t, interval, hstage⟩
      · obtain ⟨c, hc, hissued⟩ := h.issued hstage
        exact (hissued.ignore hw).ok hc hstage
      · have hwaits := h.waits_eq hstage hw
        apply ok_of_registered h hstage
        · simp [hwaits]
        · simp [hwaits]
  | once w t hw hstate hentry hrepeats =>
      have hstage := h.stage_of_entry hentry
      obtain ⟨c, hc, hissued⟩ := h.issued hstage
      exact (hissued.fire_once hw hentry hrepeats k _).ok hc hstage
  | again w t hw hstate hentry hrepeats =>
      have hstage := h.stage_of_entry hentry
      obtain ⟨c, hc, hissued⟩ := h.issued hstage
      exact (hissued.fire_again hw hentry hrepeats k _).ok hc hstage
  | clear t hentry hstage hjobs =>
      obtain ⟨c, hc, hissued⟩ := h.issued hstage
      exact (hissued.clear k).ok hc hstage
  | clearAgain hentry hstage hjobs =>
      obtain ⟨c, hc, hissued⟩ := h.issued hstage
      exact (hissued.clear_again hentry).ok hc hstage
  | run job rest hjobs =>
      have hstage := h.stage_of_job hjobs
      obtain ⟨c, hc, hissued⟩ := h.issued hstage
      exact (hissued.run hjobs).ok hc hstage

/-- A cleared timer has no callback in the queue, and none was run after it was cleared. -/
def View.Quiet (v : View) : Prop :=
  (.cleared ∈ v.history → v.jobs = []) ∧ ¬ After .cleared .ran v.history

theorem quiet_step {k : ℕ} {v v' : View} (hstep : ViewStep True k v v') (h : v.Ok)
    (hquiet : v.Quiet) : v'.Quiet := by
  obtain ⟨hjobs, hafter⟩ := hquiet
  -- what is in `timerMap` has not been cleared
  have hcleared : ∀ {t : TimerStruct}, v.entry = some t → .cleared ∉ v.history := by
    intro t hentry
    obtain ⟨c, _, hissued⟩ := h.issued (h.stage_of_entry hentry)
    exact (hissued.key.mp (by rw [hentry]; rfl)).1
  cases hstep with
  | stay => exact ⟨hjobs, hafter⟩
  | construct => exact ⟨hjobs, hafter⟩
  | asyncWait => exact ⟨hjobs, hafter⟩
  | emplace => exact ⟨hjobs, hafter⟩
  | expire => exact ⟨hjobs, hafter⟩
  | ignore => exact ⟨hjobs, hafter⟩
  | once w t hw hstate hentry hrepeats =>
      constructor
      · intro hmem
        simp [hcleared hentry] at hmem
      · exact not_after_concat (not_after_concat hafter (by decide)) (by decide)
  | again w t hw hstate hentry hrepeats =>
      constructor
      · intro hmem
        simp [hcleared hentry] at hmem
      · exact not_after_concat hafter (by decide)
  | clear t hentry hstage hqueued =>
      refine ⟨fun _ => hqueued trivial, ?_⟩
      exact not_after_concat (not_after_concat hafter (by decide)) (by decide)
  | clearAgain hentry hstage hqueued =>
      exact ⟨fun _ => hqueued trivial, not_after_concat hafter (by decide)⟩
  | run job rest hqueued =>
      have hnot : .cleared ∉ v.history := by
        intro hmem
        rw [hjobs hmem] at hqueued
        cases hqueued
      refine ⟨fun hmem => ?_, ?_⟩
      · simp [hnot] at hmem
      · rw [after_concat_iff]
        simp [hafter, hnot]

end Timer

end UnifyFramework
