import UnifyFramework.Timer.CETimerUtils

/-!
# A single timer

The timers do not depend on each other. `view s k` is what a state says about the timer
that is created as number `k`. A step of the system changes the view of one timer at
most, in one of the ways listed by `ViewStep`, so what holds of a timer in every run is
shown for the view alone. The rest of the state is kept together by `Grounded`: the
number of a timer is its identifier, and the handlers and entries carry it.
-/

namespace UnifyFramework

namespace Timer

open Transition

/-- How far `createTimer` has come with a timer. -/
inductive Stage
  | fresh
  | constructed (timerStruct : TimerStruct) (interval : Int)
  | registered (timerStruct : TimerStruct) (interval : Int)
  | issued
  deriving DecidableEq

@[ext]
structure View where
  creation : Option Creation
  stage : Stage
  entry : Option TimerStruct
  waits : List Wait
  jobs : List Job
  history : List Note

def Job.timerId? : Job → Option Int
  | .callJsFunction timerId _ => some timerId
  | .other => none

/-- Every clear of a timer comes before its callbacks are queued, or after they have run,
if `inTime` holds. -/
inductive ViewStep (inTime : Prop) (k : ℕ) : View → View → Prop
  | stay (v : View) : ViewStep inTime k v v
  | construct (v : View) (c : Creation) (hfresh : v.stage = .fresh) :
      ViewStep inTime k v { v with
        creation := some c
        stage := .constructed ⟨k, c.deadline, c.repeats, c.callback⟩ c.interval }
  | asyncWait (v : View) (t : TimerStruct) (interval : Int)
      (hstage : v.stage = .constructed t interval) :
      ViewStep inTime k v { v with
        stage := .registered t interval
        waits := v.waits ++ [⟨k, t.expiresAt, k, interval, .waiting⟩] }
  | emplace (v : View) (t : TimerStruct) (interval : Int)
      (hstage : v.stage = .registered t interval) :
      ViewStep inTime k v { v with stage := .issued, entry := some (v.entry.getD t) }
  | expire (v : View) (w : Wait) (hw : w ∈ v.waits) (hstate : w.state = .waiting) :
      ViewStep inTime k v { v with waits := v.waits.erase w ++ [{ w with state := .ready }] }
  | ignore (v : View) (w : Wait) (hw : w ∈ v.waits) (hwait : w.state ≠ .waiting)
      (hnone : w.state = .aborted ∨ v.entry = none) :
      ViewStep inTime k v { v with waits := v.waits.erase w }
  | once (v : View) (w : Wait) (t : TimerStruct) (hw : w ∈ v.waits) (hstate : w.state = .ready)
      (hentry : v.entry = some t) (hrepeats : t.repeats = false) :
      ViewStep inTime k v { v with
        entry := none
        waits := abort k (v.waits.erase w)
        jobs := v.jobs ++ [.callJsFunction k t.callback]
        history := v.history ++ [.posted] ++ [.left] }
  | again (v : View) (w : Wait) (t : TimerStruct) (hw : w ∈ v.waits) (hstate : w.state = .ready)
      (hentry : v.entry = some t) (hrepeats : t.repeats = true) :
      ViewStep inTime k v { v with
        entry := some { t with expiresAt := t.expiresAt + w.interval }
        waits := abort k (v.waits.erase w) ++
          [⟨k, t.expiresAt + w.interval, k, w.interval, .waiting⟩]
        jobs := v.jobs ++ [.callJsFunction k t.callback]
        history := v.history ++ [.posted] }
  | clear (v : View) (t : TimerStruct) (hentry : v.entry = some t) (hstage : v.stage = .issued)
      (hjobs : inTime → v.jobs = []) :
      ViewStep inTime k v { v with
        entry := none
        waits := abort k v.waits
        history := v.history ++ [.left] ++ [.cleared] }
  | clearAgain (v : View) (hentry : v.entry = none) (hstage : v.stage = .issued)
      (hjobs : inTime → v.jobs = []) :
      ViewStep inTime k v { v with history := v.history ++ [.cleared] }
  | run (v : View) (job : Job) (rest : List Job) (hjobs : v.jobs = job :: rest) :
      ViewStep inTime k v { v with jobs := rest, history := v.history ++ [.ran] }

namespace CETimerUtils

def stage (s : CETimerUtils) (k : ℕ) : Stage :=
  match s.creating with
  | .constructed t interval =>
      if k = t.timer then .constructed t interval
      else if k < s.created.length then .issued else .fresh
  | .registered t interval =>
      if k = t.timer then .registered t interval
      else if k < s.created.length then .issued else .fresh
  | _ => if k < s.created.length then .issued else .fresh

def view (s : CETimerUtils) (k : ℕ) : View where
  creation := s.created[k]?
  stage := s.stage k
  entry := s.timerMap[(k : Int)]?
  waits := s.handlers.filter fun w => w.timer = k
  jobs := s.queue.filter fun job => job.timerId? = some (k : Int)
  history := s.history k

structure Grounded (s : CETimerUtils) : Prop where
  ids : ∀ (k : ℕ) (c : Creation), s.created[k]? = some c → c.timerId = k
  idle : s.creating = .idle → s.timerCounter = s.created.length
  busy : s.creating ≠ .idle → s.timerCounter + 1 = s.created.length
  current : ∀ t interval, s.creating = .constructed t interval ∨
    s.creating = .registered t interval → t.timer + 1 = s.created.length
  handlers : ∀ w ∈ s.handlers, w.timerId = w.timer
  entries : ∀ (id : Int) (t : TimerStruct), s.timerMap[id]? = some t →
    id = t.timer ∧ t.timer < s.created.length

theorem grounded_init : Grounded init := by
  constructor <;> simp [init]

/-- If a step changes the view of one timer only, the others stay. -/
theorem viewStep_of_update {inTime : Prop} {s s' : CETimerUtils} {k₀ : ℕ} {v : View}
    (hview : s'.view = Function.update s.view k₀ v) (hstep : ViewStep inTime k₀ (s.view k₀) v)
    (k : ℕ) : ViewStep inTime k (s.view k) (s'.view k) := by
  rw [hview]
  by_cases hk : k = k₀
  · subst hk
    rw [Function.update_self]
    exact hstep
  · rw [Function.update_of_ne hk]
    exact .stay _

theorem filter_abort_self (k : ℕ) (handlers : List Wait) :
    (abort k handlers).filter (fun w => w.timer = k) =
      abort k (handlers.filter fun w => w.timer = k) := by
  rw [abort, abort, List.filter_map]
  congr 1
  apply List.filter_congr
  intro w _
  simp only [Function.comp_apply]
  split_ifs <;> rfl

theorem filter_abort_of_ne {k n : ℕ} (hne : k ≠ n) (handlers : List Wait) :
    (abort n handlers).filter (fun w => w.timer = k) = handlers.filter fun w => w.timer = k := by
  induction handlers with
  | nil => rfl
  | cons w handlers ih =>
      have hcons : abort n (w :: handlers) =
          (if w.timer = n ∧ w.state = .waiting then { w with state := .aborted } else w) ::
            abort n handlers := rfl
      rw [hcons, List.filter_cons, List.filter_cons, ih]
      by_cases hw : w.timer = n ∧ w.state = .waiting
      · have hwk : ¬ w.timer = k := fun h => hne (h.symm.trans hw.1)
        simp [hw.1, hw.2, hne.symm]
      · rw [if_neg hw]

theorem filter_erase_of_ne {k : ℕ} {w : Wait} (hne : k ≠ w.timer) (handlers : List Wait) :
    (handlers.erase w).filter (fun w => w.timer = k) = handlers.filter fun w => w.timer = k := by
  rw [← List.erase_filter, List.erase_of_not_mem]
  simp [hne.symm]

theorem natCast_ne {k k' : ℕ} (hk : k' ≠ k) : ¬ (k : Int) = k' :=
  fun heq => hk (Int.ofNat_inj.mp heq).symm

theorem view_note (s : CETimerUtils) (k : ℕ) (x : Note) :
    (s.note k x).view =
      Function.update s.view k { s.view k with history := (s.view k).history ++ [x] } := by
  refine Function.eq_update_iff.mpr ⟨?_, fun k' hk => ?_⟩
  · ext1
    case history => exact Function.update_self _ _ _
    all_goals rfl
  · ext1
    case history => exact Function.update_of_ne (Ne.symm (natCast_ne hk)) _ _
    all_goals rfl

theorem view_construct (s : CETimerUtils) (hidle : s.creating = .idle) (interval : Int)
    (repeats : Bool) (callback : ℕ) :
    (s.construct interval repeats callback).view =
      Function.update s.view s.created.length { s.view s.created.length with
        creation := some ⟨s.timerCounter, interval, repeats, callback, s.now + interval⟩
        stage := .constructed ⟨s.created.length, s.now + interval, repeats, callback⟩ interval } := by
  refine Function.eq_update_iff.mpr ⟨?_, fun k hk => ?_⟩
  · ext1
    case creation => exact List.getElem?_concat_length
    case stage => simp [view, stage, construct]
    all_goals rfl
  · ext1
    case creation =>
      simp only [view, construct]
      by_cases hlt : k < s.created.length
      · rw [List.getElem?_append_left hlt]
      · rw [List.getElem?_eq_none (by rw [List.length_append, List.length_singleton]; omega),
          List.getElem?_eq_none (by omega)]
    case stage =>
      have hlt : k < s.created.length + 1 ↔ k < s.created.length := by omega
      simp only [view, stage, construct, hidle, hk, if_false, List.length_append,
        List.length_singleton, hlt]
    all_goals rfl

theorem Grounded.counter_eq {s : CETimerUtils} (h : Grounded s) {t : TimerStruct} {interval : Int}
    (hcreating : s.creating = .constructed t interval ∨ s.creating = .registered t interval) :
    s.timerCounter = t.timer ∧ t.timer < s.created.length := by
  have hcurrent := h.current t interval hcreating
  have hbusy := h.busy (by rcases hcreating with hc | hc <;> simp [hc])
  omega

theorem view_asyncWait {s : CETimerUtils} (h : Grounded s) {t : TimerStruct} {interval : Int}
    (hcreating : s.creating = .constructed t interval) :
    (s.asyncWait t interval).view = Function.update s.view t.timer { s.view t.timer with
      stage := .registered t interval
      waits := (s.view t.timer).waits ++ [⟨t.timer, t.expiresAt, t.timer, interval, .waiting⟩] } := by
  have hcounter := (h.counter_eq (Or.inl hcreating)).1
  refine Function.eq_update_iff.mpr ⟨?_, fun k hk => ?_⟩
  · ext1
    case stage => simp [view, stage, asyncWait]
    case waits => simp [view, asyncWait, List.filter_append, hcounter]
    all_goals rfl
  · ext1
    case stage =>
      simp only [view, stage, asyncWait, hcreating, hk]
      rfl
    case waits => simp [view, asyncWait, List.filter_append, Ne.symm hk]
    all_goals rfl

theorem view_emplace {s : CETimerUtils} (h : Grounded s) {t : TimerStruct} {interval : Int}
    (hcreating : s.creating = .registered t interval) :
    (s.emplace t).view = Function.update s.view t.timer { s.view t.timer with
      stage := .issued
      entry := some ((s.view t.timer).entry.getD t) } := by
  obtain ⟨hcounter, hlt⟩ := h.counter_eq (Or.inr hcreating)
  refine Function.eq_update_iff.mpr ⟨?_, fun k hk => ?_⟩
  · ext1
    case stage => simp [view, stage, emplace, hlt]
    case entry =>
      simp only [view, emplace, hcounter, Std.ExtTreeMap.getElem?_insertIfNew,
        Std.compare_eq_iff_eq, true_and]
      split_ifs with hmem
      · obtain ⟨t', ht'⟩ := Option.isSome_iff_exists.mp
          (Std.ExtTreeMap.mem_iff_isSome_getElem?.mp hmem)
        rw [ht', Option.getD_some]
      · rw [Std.ExtTreeMap.getElem?_eq_none hmem, Option.getD_none]
    all_goals rfl
  · ext1
    case stage =>
      simp only [view, stage, emplace, hcreating, hk]
      rfl
    case entry =>
      simp only [view, emplace, hcounter, Std.ExtTreeMap.getElem?_insertIfNew,
        Std.compare_eq_iff_eq, natCast_ne hk, false_and, if_false]
    all_goals rfl

theorem view_increment {s : CETimerUtils} (hcreating : s.creating = .emplaced) :
    s.increment.view = s.view := by
  funext k
  ext1
  case stage =>
    simp only [view, stage, increment, hcreating]
    rfl
  all_goals rfl

/-- The handlers change for one timer only. -/
theorem view_handlers (s : CETimerUtils) (k : ℕ) (handlers : List Wait)
    (hother : ∀ k' ≠ k, handlers.filter (fun w => w.timer = k') = (s.view k').waits) :
    view { s with handlers := handlers } = Function.update s.view k { s.view k with
      waits := handlers.filter fun w => w.timer = k } := by
  refine Function.eq_update_iff.mpr ⟨rfl, fun k' hk => ?_⟩
  ext1
  case waits => exact hother k' hk
  all_goals rfl

theorem view_expire (s : CETimerUtils) (w : Wait) :
    (s.expire w).view = Function.update s.view w.timer { s.view w.timer with
      waits := (s.view w.timer).waits.erase w ++ [{ w with state := .ready }] } := by
  rw [expire, view_handlers s w.timer]
  · simp [view, List.filter_append, List.erase_filter]
  · intro k hk
    simp [view, List.filter_append, filter_erase_of_ne hk, Ne.symm hk]

theorem view_erase (s : CETimerUtils) (w : Wait) :
    view { s with handlers := s.handlers.erase w } = Function.update s.view w.timer
      { s.view w.timer with waits := (s.view w.timer).waits.erase w } := by
  rw [view_handlers s w.timer]
  · simp [view, List.erase_filter]
  · intro k hk
    rw [filter_erase_of_ne hk]
    rfl

theorem view_callJsFunction (s : CETimerUtils) (k callback : ℕ) :
    (s.callJsFunction k callback).view = Function.update s.view k { s.view k with
      jobs := (s.view k).jobs ++ [.callJsFunction k callback]
      history := (s.view k).history ++ [.posted] } := by
  have hqueue : view { s with queue := s.queue ++ [.callJsFunction k callback] } =
      Function.update s.view k { s.view k with
        jobs := (s.view k).jobs ++ [.callJsFunction k callback] } := by
    refine Function.eq_update_iff.mpr ⟨?_, fun k' hk => ?_⟩
    · ext1
      case jobs => simp [view, List.filter_append, Job.timerId?]
      all_goals rfl
    · ext1
      case jobs => simp [view, List.filter_append, Job.timerId?, natCast_ne hk]
      all_goals rfl
  rw [callJsFunction, view_note, hqueue, Function.update_idem, Function.update_self]

theorem view_cancelTimer {s : CETimerUtils} {k : ℕ} {t : TimerStruct}
    (hentry : (s.view k).entry = some t) (htimer : t.timer = k) :
    (s.cancelTimer k).view = Function.update s.view k { s.view k with
      entry := none
      waits := abort k (s.view k).waits
      history := (s.view k).history ++ [.left] } := by
  have hget : s.timerMap[(k : Int)]? = some t := hentry
  have herase : view { s with
      timerMap := s.timerMap.erase (k : Int)
      handlers := abort t.timer s.handlers } = Function.update s.view k { s.view k with
        entry := none
        waits := abort k (s.view k).waits } := by
    refine Function.eq_update_iff.mpr ⟨?_, fun k' hk => ?_⟩
    · ext1
      case entry => simp [view]
      case waits => simp only [view, htimer, filter_abort_self]
      all_goals rfl
    · ext1
      case entry => simp [view, Std.ExtTreeMap.getElem?_erase, natCast_ne hk]
      case waits => simp only [view, htimer, filter_abort_of_ne hk]
      all_goals rfl
  simp only [cancelTimer, hget]
  rw [view_note, herase, Function.update_idem, Function.update_self]

theorem view_rearm (s : CETimerUtils) {k : ℕ} {t : TimerStruct} (htimer : t.timer = k)
    (interval : Int) :
    (s.rearm k interval t).view = Function.update s.view k { s.view k with
      entry := some { t with expiresAt := t.expiresAt + interval }
      waits := abort k (s.view k).waits ++ [⟨k, t.expiresAt + interval, k, interval, .waiting⟩] } := by
  refine Function.eq_update_iff.mpr ⟨?_, fun k' hk => ?_⟩
  · ext1
    case entry => simp [view, rearm]
    case waits => simp [view, rearm, htimer, List.filter_append, filter_abort_self]
    all_goals rfl
  · ext1
    case entry => simp [view, rearm, Std.ExtTreeMap.getElem?_insert, natCast_ne hk]
    case waits =>
      simp [view, rearm, htimer, List.filter_append, filter_abort_of_ne hk, Ne.symm hk]
    all_goals rfl

end CETimerUtils

end Timer

end UnifyFramework
