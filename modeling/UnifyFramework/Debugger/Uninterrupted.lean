import UnifyFramework.Debugger.Locks

/-!
# The code of the methods without interruption

The code that the threads execute in `Locks` is finer than the methods of `Client`. A thread
that is not interrupted, and whose receivers call nothing, does with this code what the
methods do: a request method ends as `perform` does, and `put` as `dukTransDvalueWrite` does.
-/

namespace UnifyFramework

namespace Debugger

open Transition Transition.Locking

variable {sign : CharSign}

def Comes (sign : CharSign) (x y : DukDebugger × Code) : Prop :=
  Relation.ReflTransGen (Alone (DukDebugger.exec sign) []) x y

namespace Comes

theorem trans {x y z : DukDebugger × Code} (hxy : Comes sign x y) (hyz : Comes sign y z) :
    Comes sign x z := Relation.ReflTransGen.trans hxy hyz

theorem lock {d : DukDebugger} {m : Mutex} {rest : Code} {y : DukDebugger × Code}
    (h : Comes sign (d, rest) y) : Comes sign (d, .lock m :: rest) y :=
  .head (.lock d m rest) h

theorem unlock {d : DukDebugger} {m : Mutex} {rest : Code} {y : DukDebugger × Code}
    (h : Comes sign (d, rest) y) : Comes sign (d, .unlock m :: rest) y :=
  .head (.unlock d m rest) h

theorem act {d d' : DukDebugger} {a : Act} {code rest : Code} {y : DukDebugger × Code}
    (hexec : d.exec sign a [] = (d', code)) (h : Comes sign (d', code ++ rest) y) :
    Comes sign (d, .act a :: rest) y := by
  have hact : Alone (DukDebugger.exec sign) [] (d, .act a :: rest)
      ((d.exec sign a []).1, (d.exec sign a []).2 ++ rest) := .act d a rest
  rw [hexec] at hact
  exact .head hact h

end Comes

section Exec

variable {d : DukDebugger}

theorem exec_pendBreakpoint_of_none {place : Place} (h : d.pendBreakpoint place = none) :
    d.exec sign (.pendBreakpoint place) [] = (d, [.unlock .breakpointPendingMutex]) := by
  simp only [DukDebugger.exec, h]

theorem exec_pendBreakpoint_of_some {d' : DukDebugger} {place : Place}
    (h : d.pendBreakpoint place = some d') :
    d.exec sign (.pendBreakpoint place) [] = (d', .unlock .breakpointPendingMutex ::
      sendCode (createAddBreakpointRequest place.1 place.2)) := by
  simp only [DukDebugger.exec, h]

theorem exec_takeBreakpoint (d : DukDebugger) (place : Place) :
    d.exec sign (.takeBreakpoint place) [] =
      ((d.takeBreakpoint place).2, .unlock .breakpointPendingMutex ::
        if (d.takeBreakpoint place).1 ≠ -1 then
          sendCode (createRemoveBreakpointRequest (d.takeBreakpoint place).1)
        else []) := rfl

theorem exec_eatDefault_of_some {calls : List Callback} {savedData : Bytes}
    (h : defaultRecognizers.findSome? (fun r => r.eat d.grammarReceiver.savedData) =
      some (calls, savedData)) :
    d.exec sign .eatDefault [] = (d.setSavedData savedData, calls.flatMap receiverCode ++
      [.lock .recognizerQueueMutex, .unlock .recognizerQueueMutex, .act .eatDefault]) := by
  simp only [DukDebugger.exec, h]

theorem exec_eatDefault_of_none
    (h : defaultRecognizers.findSome? (fun r => r.eat d.grammarReceiver.savedData) = none) :
    d.exec sign .eatDefault [] = (d, [.lock .recognizerQueueMutex, .act .eatQueue]) := by
  simp only [DukDebugger.exec, h]

theorem exec_eatQueue_of_some {k : ReplyRecognizer} {queue : List ReplyRecognizer}
    {calls : List Callback} {savedData : Bytes}
    (hqueue : d.grammarReceiver.recognizerQueue = k :: queue)
    (h : k.eat sign d.grammarReceiver.savedData = some (calls, savedData)) :
    d.exec sign .eatQueue [] = (d.setSavedData savedData, calls.flatMap receiverCode ++
      [.act .popRecognizer, .unlock .recognizerQueueMutex, .act .eatDefault]) := by
  simp only [DukDebugger.exec, hqueue, h]

theorem exec_eatQueue_of_none
    (h : ∀ k queue, d.grammarReceiver.recognizerQueue = k :: queue →
      k.eat sign d.grammarReceiver.savedData = none) :
    d.exec sign .eatQueue [] = (d, [.unlock .recognizerQueueMutex]) := by
  cases hqueue : d.grammarReceiver.recognizerQueue with
  | nil => simp only [DukDebugger.exec, hqueue]
  | cons k queue => simp only [DukDebugger.exec, hqueue, h k queue hqueue]

end Exec

theorem comes_sendCode (d : DukDebugger) (request : Request) (rest : Code) :
    Comes sign (d, sendCode request ++ rest) (d.send request, rest) := by
  rw [sendCode, DukDebugger.send]
  refine .lock (.act rfl (.unlock ?_))
  split_ifs with hempty
  · rw [DukDebugger.refillDataToSend, if_pos hempty]
    exact .refl
  · exact .lock (.act rfl (.unlock .refl))

theorem comes_methodCode (d : DukDebugger) (method : Method) (rest : Code) :
    Comes sign (d, methodCode method ++ rest) (d.perform method, rest) := by
  rw [DukDebugger.perform_eq]
  cases method with
  | pause | resume | stepInto | stepOver | stepOut | getLocals => exact comes_sendCode d _ rest
  | addBreakpoint filename line =>
      refine .lock ?_
      simp only [DukDebugger.addBreakpoint]
      cases hpend : d.pendBreakpoint (filename, line) with
      | none => exact .act (exec_pendBreakpoint_of_none hpend) (.unlock .refl)
      | some d' =>
          exact .act (exec_pendBreakpoint_of_some hpend) (.unlock (comes_sendCode d' _ rest))
  | removeBreakpoint filename line =>
      refine .lock (.act (exec_takeBreakpoint d _) (.unlock ?_))
      simp only [DukDebugger.removeBreakpoint]
      split_ifs
      · exact comes_sendCode _ _ rest
      · exact .refl

theorem comes_receiverCode (d : DukDebugger) (callback : Callback) (rest : Code) :
    Comes sign (d, receiverCode callback ++ rest) (d.call callback, rest) := by
  cases callback with
  | replyAddBreakpointReceiver value => exact .lock (.act rfl (.unlock .refl))
  | versionIdentificationReceiver | statusNotificationReceiver | exceptionNotificationReceiver
  | replyRemoveBreakpointReceiver | replyNameValueArrayReceiver => exact .act rfl .refl

theorem comes_receivers (calls : List Callback) (d : DukDebugger) (rest : Code) :
    Comes sign (d, calls.flatMap receiverCode ++ rest) (calls.foldl DukDebugger.call d, rest) := by
  induction calls generalizing d with
  | nil => exact .refl
  | cons callback calls ih =>
      rw [List.flatMap_cons, List.append_assoc]
      exact (comes_receiverCode d callback _).trans (ih _)

/-- The receivers leave the data of `put` alone. -/
theorem call_withReceiver (d : DukDebugger) (r : GrammarReceiver) (callback : Callback) :
    ({ d with grammarReceiver := r } : DukDebugger).call callback =
      { d.call callback with grammarReceiver := r } := by
  cases callback with
  | replyAddBreakpointReceiver value =>
      obtain ⟨receiver, map, pending, buffer, pause⟩ := d
      cases pending <;> rfl
  | versionIdentificationReceiver | statusNotificationReceiver | exceptionNotificationReceiver
  | replyRemoveBreakpointReceiver | replyNameValueArrayReceiver => rfl

theorem foldl_call_withReceiver (calls : List Callback) (d : DukDebugger) (r : GrammarReceiver) :
    calls.foldl DukDebugger.call { d with grammarReceiver := r } =
      { calls.foldl DukDebugger.call d with grammarReceiver := r } := by
  induction calls generalizing d with
  | nil => rfl
  | cons callback calls ih => rw [List.foldl_cons, call_withReceiver, ih, List.foldl_cons]

/-- The recognizer may be taken off the queue behind the receivers or before them. -/
theorem popRecognizer_foldl_call {d : DukDebugger} {k : ReplyRecognizer}
    {queue : List ReplyRecognizer} (hqueue : d.grammarReceiver.recognizerQueue = k :: queue)
    (calls : List Callback) (savedData : Bytes) :
    (calls.foldl DukDebugger.call (d.setSavedData savedData)).popRecognizer =
      calls.foldl DukDebugger.call { d with
        grammarReceiver :=
          { d.grammarReceiver with savedData := savedData, recognizerQueue := queue } } := by
  rw [DukDebugger.setSavedData, foldl_call_withReceiver, DukDebugger.popRecognizer]
  simp only [hqueue, List.tail_cons]
  exact (foldl_call_withReceiver calls d _).symm

theorem comes_round {d : DukDebugger} {calls : List Callback} {r : GrammarReceiver}
    (h : d.grammarReceiver.round sign = some (calls, r)) (rest : Code) :
    Comes sign (d, .act .eatDefault :: rest)
      (calls.foldl DukDebugger.call { d with grammarReceiver := r }, .act .eatDefault :: rest) := by
  rw [GrammarReceiver.round] at h
  split at h
  · next calls' savedData heat =>
      obtain ⟨rfl, rfl⟩ := Prod.mk.inj (Option.some.inj h)
      refine .act (exec_eatDefault_of_some heat) ?_
      rw [List.append_assoc]
      exact (comes_receivers calls' _ _).trans (.lock (.unlock .refl))
  · next heat =>
      refine .act (exec_eatDefault_of_none heat) (.lock ?_)
      split at h
      · cases h
      · next k queue hqueue =>
          split at h
          · cases h
          · next calls' savedData hreply =>
              obtain ⟨rfl, rfl⟩ := Prod.mk.inj (Option.some.inj h)
              refine .act (exec_eatQueue_of_some hqueue hreply) ?_
              rw [List.append_assoc]
              rw [← popRecognizer_foldl_call hqueue]
              exact (comes_receivers calls' _ _).trans (.act rfl (.unlock .refl))

/-- The round in which no recognizer eats ends the loop. -/
theorem comes_stop {d : DukDebugger} (h : d.grammarReceiver.round sign = none) (rest : Code) :
    Comes sign (d, .act .eatDefault :: rest) (d, rest) := by
  rw [GrammarReceiver.round] at h
  split at h
  · cases h
  · next heat =>
      refine .act (exec_eatDefault_of_none heat) (.lock (.act (exec_eatQueue_of_none ?_)
        (.unlock .refl)))
      intro k queue hqueue
      rw [hqueue] at h
      split at h
      · next hnil => cases hnil
      · next k' queue' hcons =>
          obtain ⟨rfl, rfl⟩ := List.cons.inj hcons
          split at h
          · next hnone => exact hnone
          · cases h

theorem comes_loop {r r' : GrammarReceiver} {calls : List Callback}
    (h : Exhausts (GrammarReceiver.round sign) r calls r') {d : DukDebugger}
    (hd : d.grammarReceiver = r) (rest : Code) :
    Comes sign (d, .act .eatDefault :: rest)
      (calls.foldl DukDebugger.call { d with grammarReceiver := r' }, rest) := by
  induction h generalizing d with
  | stop hround =>
      subst hd
      exact comes_stop hround rest
  | @more _ mid r' first others hround _ ih =>
      subst hd
      have hmid : (first.foldl DukDebugger.call { d with grammarReceiver := mid }).grammarReceiver
          = mid := by rw [foldl_call_withReceiver]
      have hrest := ih hmid
      rw [foldl_call_withReceiver first d mid] at hrest
      rw [List.foldl_append, foldl_call_withReceiver first d r']
      refine (comes_round hround rest).trans ?_
      rw [foldl_call_withReceiver first d mid]
      exact hrest

theorem comes_putCode (d : DukDebugger) (data : Bytes) (rest : Code) :
    Comes sign (d, putCode data ++ rest) (d.dukTransDvalueWrite sign data, rest) := by
  refine .act rfl ?_
  exact comes_loop (GrammarReceiver.exhausts_put sign d.grammarReceiver data) rfl rest

namespace Threads

variable {τ : Type} [DecidableEq τ] {s s' : Threads τ} {t : τ} {n : ℕ}

/-- A request method that is not interrupted does what `perform` does. -/
theorem data_of_methodCode {method : Method} (hstart : s.code t = methodCode method)
    (hrun : run (fun s (_ : Unit) => Locking.advance (DukDebugger.exec sign) s t []) s
      (List.replicate n ()) = some s') (hend : s'.code t = []) :
    s'.data = s.data.perform method := by
  refine data_of_run hrun hend ?_
  have h : Comes sign (s.data, methodCode method ++ []) (s.data.perform method, []) :=
    comes_methodCode s.data method []
  rwa [List.append_nil, ← hstart] at h

/-- `put` that is not interrupted does what `dukTransDvalueWrite` does. -/
theorem data_of_putCode {data : Bytes} (hstart : s.code t = putCode data)
    (hrun : run (fun s (_ : Unit) => Locking.advance (DukDebugger.exec sign) s t []) s
      (List.replicate n ()) = some s') (hend : s'.code t = []) :
    s'.data = s.data.dukTransDvalueWrite sign data := by
  refine data_of_run hrun hend ?_
  have h : Comes sign (s.data, putCode data ++ []) (s.data.dukTransDvalueWrite sign data, []) :=
    comes_putCode s.data data []
  rwa [List.append_nil, ← hstart] at h

end Threads

end Debugger

end UnifyFramework
