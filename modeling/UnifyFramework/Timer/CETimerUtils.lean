import Mathlib.Algebra.Group.Int.Defs
import Mathlib.Logic.Function.Basic
import Mathlib.Tactic.Common
import UnifyFramework.Transition.Run

/-!
# Timers

`CETimerUtils` keeps the timers in `timerMap` under identifiers from `timerCounter`.
Their wait handlers run on the timer thread: `onTimerFire` looks the identifier up, posts
the callback to the queue of the JS engine, and arms a repeating timer again or removes
any other. The JS thread runs the jobs in the queue one by one. A job creates and clears
timers; `createTimer` is split into its steps, and the timer thread may run a handler
between any two of them.

Of boost's `deadline_timer` the model keeps the expiry time and the handlers. A handler
whose time has come is ready and will run without an error. If the timer is destroyed
first, or its expiry time is set again, the handler is aborted and will run with an
error. `timer` is the number of a `deadline_timer` object in the order of construction.
The histories record the creations and, for every identifier, what happened to it.
-/

namespace UnifyFramework

namespace Timer

structure TimerStruct where
  timer : ℕ
  expiresAt : Int
  repeats : Bool
  callback : ℕ
  deriving DecidableEq

inductive WaitState
  | waiting
  | ready
  | aborted
  deriving DecidableEq

/-- An outstanding handler `onTimerFire(timerId, interval, _)`. -/
structure Wait where
  timer : ℕ
  expiry : Int
  timerId : Int
  interval : Int
  state : WaitState
  deriving DecidableEq

inductive Job
  | callJsFunction (timerId : Int) (callback : ℕ)
  | other
  deriving DecidableEq

/-- Where the JS thread is in `createTimer`. -/
inductive Creating
  | idle
  | constructed (timerStruct : TimerStruct) (interval : Int)
  | registered (timerStruct : TimerStruct) (interval : Int)
  | emplaced
  deriving DecidableEq

/-- A call of `createTimer`, with the first expiry time. -/
structure Creation where
  timerId : Int
  interval : Int
  repeats : Bool
  callback : ℕ
  deadline : Int
  deriving DecidableEq

/-- What can happen to an identifier: its callback is posted, a job runs the callback, a
job clears the timer, it leaves `timerMap`. -/
inductive Note
  | posted
  | ran
  | cleared
  | left
  deriving DecidableEq

structure CETimerUtils where
  timerMap : Std.ExtTreeMap Int TimerStruct
  timerCounter : Int
  now : Int
  handlers : List Wait
  creating : Creating
  queue : List Job
  /-- The JS thread is in a job. -/
  running : Bool
  created : List Creation
  history : Int → List Note

inductive TimerEvent
  | post
  | begin
  | finish
  | construct (interval : Int) (repeats : Bool) (callback : ℕ)
  | asyncWait
  | emplace
  | increment
  | clear (timerId : Int)
  | tick (milliseconds : ℕ)
  | expire (w : Wait)
  | fire (w : Wait)
  deriving DecidableEq

def abort (timer : ℕ) (handlers : List Wait) : List Wait :=
  handlers.map fun w =>
    if w.timer = timer ∧ w.state = .waiting then { w with state := .aborted } else w

namespace CETimerUtils

def init : CETimerUtils := ⟨∅, 0, 0, [], .idle, [], false, [], fun _ => []⟩

def note (s : CETimerUtils) (timerId : Int) (x : Note) : CETimerUtils :=
  { s with history := Function.update s.history timerId (s.history timerId ++ [x]) }

/-- The identifier is taken from the counter and the `TimerStruct` is constructed. -/
def construct (s : CETimerUtils) (interval : Int) (repeats : Bool) (callback : ℕ) : CETimerUtils :=
  { s with
    creating := .constructed ⟨s.created.length, s.now + interval, repeats, callback⟩ interval
    created := s.created ++ [⟨s.timerCounter, interval, repeats, callback, s.now + interval⟩] }

def asyncWait (s : CETimerUtils) (timerStruct : TimerStruct) (interval : Int) : CETimerUtils :=
  { s with
    creating := .registered timerStruct interval
    handlers := s.handlers ++
      [⟨timerStruct.timer, timerStruct.expiresAt, s.timerCounter, interval, .waiting⟩] }

def emplace (s : CETimerUtils) (timerStruct : TimerStruct) : CETimerUtils :=
  { s with
    creating := .emplaced
    timerMap := s.timerMap.insertIfNew s.timerCounter timerStruct }

def increment (s : CETimerUtils) : CETimerUtils :=
  { s with creating := .idle, timerCounter := s.timerCounter + 1 }

def cancelTimer (s : CETimerUtils) (timerId : Int) : CETimerUtils :=
  match s.timerMap[timerId]? with
  | none => s
  | some timerStruct =>
      note { s with
        timerMap := s.timerMap.erase timerId
        handlers := abort timerStruct.timer s.handlers } timerId .left

/-- `clearTimeout` and `clearInterval`, both `jsb_clearInterval`. It is recorded if there
has been a timer with the identifier. -/
def clear (s : CETimerUtils) (timerId : Int) : CETimerUtils :=
  if 0 ≤ timerId ∧ timerId < s.timerCounter then (s.cancelTimer timerId).note timerId .cleared
  else s.cancelTimer timerId

def callJsFunction (s : CETimerUtils) (timerId : Int) (callback : ℕ) : CETimerUtils :=
  note { s with queue := s.queue ++ [.callJsFunction timerId callback] } timerId .posted

/-- `expires_at` with the next time, and another `async_wait`. -/
def rearm (s : CETimerUtils) (timerId interval : Int) (timerStruct : TimerStruct) : CETimerUtils :=
  { s with
    timerMap := s.timerMap.insert timerId
      { timerStruct with expiresAt := timerStruct.expiresAt + interval }
    handlers := abort timerStruct.timer s.handlers ++
      [⟨timerStruct.timer, timerStruct.expiresAt + interval, timerId, interval, .waiting⟩] }

def onTimerFire (s : CETimerUtils) (timerId interval : Int) (error : Bool) : CETimerUtils :=
  if error then s
  else
    match s.timerMap[timerId]? with
    | none => s
    | some timerStruct =>
        if timerStruct.repeats then
          (s.callJsFunction timerId timerStruct.callback).rearm timerId interval timerStruct
        else (s.callJsFunction timerId timerStruct.callback).cancelTimer timerId

def begin (s : CETimerUtils) (job : Job) (rest : List Job) : CETimerUtils :=
  match job with
  | .callJsFunction timerId _ => note { s with queue := rest, running := true } timerId .ran
  | .other => { s with queue := rest, running := true }

def expire (s : CETimerUtils) (w : Wait) : CETimerUtils :=
  { s with handlers := s.handlers.erase w ++ [{ w with state := .ready }] }

def fire (s : CETimerUtils) (w : Wait) : CETimerUtils :=
  onTimerFire { s with handlers := s.handlers.erase w } w.timerId w.interval (w.state = .aborted)

/-- `timerCounter` is an `int`, and it is never incremented beyond its range. -/
def step (s : CETimerUtils) : TimerEvent → Option CETimerUtils
  | .post => some { s with queue := s.queue ++ [.other] }
  | .begin =>
      match s.running, s.queue with
      | false, job :: rest => some (s.begin job rest)
      | _, _ => none
  | .finish => if s.running ∧ s.creating = .idle then some { s with running := false } else none
  | .construct interval repeats callback =>
      if s.running ∧ s.creating = .idle ∧ s.timerCounter < 2 ^ 31 - 1 then
        some (s.construct interval repeats callback)
      else none
  | .asyncWait =>
      match s.creating with
      | .constructed timerStruct interval => some (s.asyncWait timerStruct interval)
      | _ => none
  | .emplace =>
      match s.creating with
      | .registered timerStruct _ => some (s.emplace timerStruct)
      | _ => none
  | .increment => if s.creating = .emplaced then some s.increment else none
  | .clear timerId => if s.running ∧ s.creating = .idle then some (s.clear timerId) else none
  | .tick milliseconds => some { s with now := s.now + milliseconds }
  | .expire w =>
      if w ∈ s.handlers ∧ w.state = .waiting ∧ w.expiry ≤ s.now then some (s.expire w) else none
  | .fire w => if w ∈ s.handlers ∧ w.state ≠ .waiting then some (s.fire w) else none

end CETimerUtils

end Timer

end UnifyFramework
