import UnifyFramework.Debugger.PrefixCode
import UnifyFramework.Debugger.Receiver

/-!
# The loop of `put`, statement by statement

`Recognizer::eat` changes the data it is given only if it has recognized a message at the
front of it. Here the do-while loop of `GrammarReceiver::put` is run with the data as every
`eat` leaves it, pass by pass, and it is shown to be the loop `put` stands for. Every message
has at least two bytes, so the loop makes at most one pass for two buffered bytes and one
more, whatever is on the queue and whatever other threads push onto it meanwhile. Nothing is
lost on the way: what has been eaten and what is still buffered are together all the bytes
that have arrived, unless the leftover is cleared.
-/

namespace UnifyFramework

namespace Debugger

open Parsing Parsing.Parser Transition

/-- What comes of an attempt to eat: whether it has succeeded, the receiver calls it has made,
and the data afterwards. -/
structure Eaten where
  ate : Bool
  calls : List Callback
  data : Bytes
  deriving DecidableEq, Repr

/-- `Recognizer::eat`. -/
def eatFrom (eat : Parser UInt8 (List Callback)) (data : Bytes) : Eaten :=
  match eat data with
  | some (calls, rest) => ⟨true, calls, rest⟩
  | none => ⟨false, [], data⟩

/-- Two bytes or more are gone from the front of the data, or nothing has happened. -/
def Eaten.Proper (data : Bytes) (e : Eaten) : Prop :=
  if e.ate then ∃ u, data = u ++ e.data ∧ 2 ≤ u.length else e.calls = [] ∧ e.data = data

def eatDefault : List DefaultRecognizer → Bytes → Eaten
  | [], data => ⟨false, [], data⟩
  | defaultRecognizer :: defaultRecognizers, data =>
      let e := eatFrom defaultRecognizer.eat data
      if e.ate then e else eatDefault defaultRecognizers e.data

namespace GrammarReceiver

/-- One pass of the do-while loop, with `recognizerRepeat`. -/
def pass (sign : CharSign) (r : GrammarReceiver) : Bool × List Callback × GrammarReceiver :=
  let e := eatDefault defaultRecognizers r.savedData
  let r := { r with savedData := e.data }
  if e.ate then (true, e.calls, r)
  else
    match r.recognizerQueue with
    | [] => (false, [], r)
    | k :: queue =>
        let e := eatFrom (k.eat sign) r.savedData
        let r := { r with savedData := e.data }
        if e.ate then (true, e.calls, { r with recognizerQueue := queue })
        else (false, [], r)

/-- The `push_back` of the `Create*Request` functions. -/
def push (r : GrammarReceiver) (ks : List ReplyRecognizer) : GrammarReceiver :=
  { r with recognizerQueue := r.recognizerQueue ++ ks }

/-- The do-while loop, with the number of its passes. The recognizers `pushed i` are pushed by
the receivers or by other threads before pass `i`. -/
def putLoop (sign : CharSign) (pushed : ℕ → List ReplyRecognizer) :
    ℕ → ℕ → GrammarReceiver → Option (ℕ × List Callback × GrammarReceiver)
  | 0, _, _ => none
  | fuel + 1, i, r =>
      match pass sign (r.push (pushed i)) with
      | (true, calls, r') =>
          (putLoop sign pushed fuel (i + 1) r').map fun (n, more, r'') => (n + 1, calls ++ more, r'')
      | (false, calls, r') => some (1, calls, r')

end GrammarReceiver

theorem eatFrom_proper {eat : Parser UInt8 (List Callback)} (hexact : Exact eat)
    (hconsumes : Consumes 2 eat) (data : Bytes) : (eatFrom eat data).Proper data := by
  rw [eatFrom]
  cases h : eat data with
  | none => exact ⟨rfl, rfl⟩
  | some x => exact hexact.exists_consumed hconsumes h

theorem consumes_eatWith {α : Type} {grammar : Parser UInt8 α} (hg : Consumes 2 grammar)
    (callback : α → List Callback) : Consumes 2 (eatWith grammar callback) :=
  hg.bind fun _ => consumes_pure _

theorem DefaultRecognizer.consumes_eat (d : DefaultRecognizer) : Consumes 2 d.eat := by
  -- the sign of `char` does not matter to the default grammars
  have hg := MessageGrammar.parser_consumes .signed
  cases d with
  | versionIdentification => exact consumes_eatWith (hg .versionIdentification) _
  | statusNotification => exact consumes_eatWith (hg .statusNotification) _
  | exceptionNotification => exact consumes_eatWith (hg .exceptionNotification) _

theorem ReplyRecognizer.consumes_eat (sign : CharSign) (k : ReplyRecognizer) :
    Consumes 2 (k.eat sign) := by
  have hg := MessageGrammar.parser_consumes sign
  cases k with
  | reply => exact consumes_eatWith (hg .reply) _
  | replyRemoveBreakpoint => exact consumes_eatWith (hg .reply) _
  | replyAddBreakpoint => exact consumes_eatWith (hg .replyInt) _
  | replyNameValueArray => exact consumes_eatWith (hg .replyNameValueArray) _

theorem consumes_replyNameValueGrammar (sign : CharSign) :
    Consumes 2 (replyNameValueGrammar sign) :=
  exactFrom_dukDebugStr.progress.consumes.bind fun _ =>
    (exactFrom_replyValue sign).progress.consumes.bind fun _ => consumes_pure _

namespace GrammarReceiver

theorem eatDefault_eq (ds : List DefaultRecognizer) (data : Bytes) :
    eatDefault ds data =
      match ds.findSome? fun d => d.eat data with
      | some (calls, rest) => ⟨true, calls, rest⟩
      | none => ⟨false, [], data⟩ := by
  induction ds with
  | nil => rfl
  | cons d ds ih =>
      rw [eatDefault, eatFrom, List.findSome?_cons]
      cases h : d.eat data with
      | none => exact ih
      | some x => rfl

theorem pass_eq (sign : CharSign) (r : GrammarReceiver) :
    pass sign r =
      match round sign r with
      | some (calls, r') => (true, calls, r')
      | none => (false, [], r) := by
  obtain ⟨total, saved, queue⟩ := r
  rw [pass, round, eatDefault_eq]
  cases hfind : defaultRecognizers.findSome? fun d => d.eat saved with
  | some x => rfl
  | none =>
      cases queue with
      | nil => rfl
      | cons k queue =>
          cases hk : k.eat sign saved with
          | none => simp [eatFrom, hk]
          | some x => simp [eatFrom, hk]

theorem pass_of_repeat {sign : CharSign} {r r' : GrammarReceiver} {calls : List Callback} :
    pass sign r = (true, calls, r') ↔ round sign r = some (calls, r') := by
  rw [pass_eq]
  cases round sign r with
  | none => simp
  | some x => simp [Prod.ext_iff]

theorem pass_of_end {sign : CharSign} {r r' : GrammarReceiver} {calls : List Callback} :
    pass sign r = (false, calls, r') ↔ round sign r = none ∧ calls = [] ∧ r' = r := by
  rw [pass_eq]
  cases round sign r with
  | none => simp [eq_comm]
  | some x => simp

/-- A pass that has eaten has taken at least two bytes from the front. -/
theorem exists_of_round {sign : CharSign} {r r' : GrammarReceiver} {calls : List Callback}
    (h : round sign r = some (calls, r')) :
    r'.totalSavedData = r.totalSavedData ∧
      ∃ u, r.savedData = u ++ r'.savedData ∧ 2 ≤ u.length := by
  rcases round_cases h with ⟨d, rest, hd, rfl⟩ | ⟨k, queue, rest, _, hk, rfl⟩
  · have hproper := eatFrom_proper d.exactFrom_eat.exact d.consumes_eat r.savedData
    rw [eatFrom, hd] at hproper
    exact ⟨rfl, hproper⟩
  · have hproper := eatFrom_proper (k.exactFrom_eat sign).exact (k.consumes_eat sign) r.savedData
    rw [eatFrom, hk] at hproper
    exact ⟨rfl, hproper⟩

section Loop

variable {sign : CharSign} {pushed : ℕ → List ReplyRecognizer} {fuel i n : ℕ}
  {r r' r'' : GrammarReceiver} {calls more : List Callback}

theorem putLoop_of_end (h : pass sign (r.push (pushed i)) = (false, calls, r')) :
    putLoop sign pushed (fuel + 1) i r = some (1, calls, r') := by
  simp only [putLoop, h]

theorem putLoop_of_repeat (h : pass sign (r.push (pushed i)) = (true, calls, r')) :
    putLoop sign pushed (fuel + 1) i r =
      (putLoop sign pushed fuel (i + 1) r').map fun (n, more, r'') =>
        (n + 1, calls ++ more, r'') := by
  simp only [putLoop, h]

/-- The loop ends, after at most one pass for every two bytes and one more. -/
theorem exists_putLoop (sign : CharSign) (pushed : ℕ → List ReplyRecognizer) (i : ℕ)
    (r : GrammarReceiver) :
    ∃ n calls r', n ≤ r.savedData.length / 2 + 1 ∧
      ∀ fuel, n ≤ fuel → putLoop sign pushed fuel i r = some (n, calls, r') := by
  -- the buffer is shorter by two bytes after every pass but the last one
  induction hbound : r.savedData.length / 2 using Nat.strongRecOn generalizing i r with
  | _ bound ih =>
      obtain ⟨repeats, calls, r', hpass⟩ :
          ∃ repeats calls r', pass sign (r.push (pushed i)) = (repeats, calls, r') := ⟨_, _, _, rfl⟩
      cases repeats with
      | false =>
          refine ⟨1, calls, r', Nat.le_add_left _ _, fun fuel hfuel => ?_⟩
          obtain ⟨fuel, rfl⟩ := Nat.exists_eq_add_of_le' hfuel
          exact putLoop_of_end hpass
      | true =>
          obtain ⟨_, u, hsaved, hu⟩ := exists_of_round (pass_of_repeat.mp hpass)
          have hlen : r.savedData.length = u.length + r'.savedData.length := by
            rw [← List.length_append, ← hsaved]
            rfl
          obtain ⟨n, more, r'', hn, hloop⟩ :=
            ih (r'.savedData.length / 2) (by omega) (i + 1) r' rfl
          refine ⟨n + 1, calls ++ more, r'', by omega, fun fuel hfuel => ?_⟩
          obtain ⟨fuel, rfl⟩ := Nat.exists_eq_add_of_le' hfuel
          rw [← Nat.add_assoc, putLoop_of_repeat hpass, hloop _ (Nat.le_add_left _ _),
            Option.map_some]

theorem push_nil (r : GrammarReceiver) : r.push [] = r := by
  rw [push, List.append_nil]

/-- If nothing is pushed meanwhile, what is shown of the last pass and kept by every pass
before it is shown of the loop. -/
theorem putLoop_rule {motive : GrammarReceiver → ℕ → List Callback → GrammarReceiver → Prop}
    (hend : ∀ r, round sign r = none → motive r 1 [] r)
    (hrepeat : ∀ r calls mid n more r', round sign r = some (calls, mid) →
      motive mid n more r' → motive r (n + 1) (calls ++ more) r')
    (h : putLoop sign (fun _ => []) fuel i r = some (n, calls, r')) : motive r n calls r' := by
  induction fuel generalizing i r n calls with
  | zero => cases h
  | succ fuel ih =>
      obtain ⟨repeats, first, mid, hpass⟩ :
          ∃ repeats first mid, pass sign (r.push []) = (repeats, first, mid) := ⟨_, _, _, rfl⟩
      cases repeats with
      | false =>
          rw [putLoop_of_end hpass] at h
          cases h
          rw [push_nil] at hpass
          obtain ⟨hround, rfl, rfl⟩ := pass_of_end.mp hpass
          exact hend _ hround
      | true =>
          rw [putLoop_of_repeat hpass] at h
          obtain ⟨⟨m, more, r''⟩, hrest, heq⟩ := Option.map_eq_some_iff.mp h
          cases heq
          rw [push_nil] at hpass
          exact hrepeat _ _ _ _ _ _ (pass_of_repeat.mp hpass) (ih hrest)

/-- The loop is then the one of `put`. -/
theorem exhausts_of_putLoop
    (h : putLoop sign (fun _ => []) fuel i r = some (n, calls, r')) :
    Exhausts (round sign) r calls r' :=
  putLoop_rule (motive := fun r _ calls r' => Exhausts (round sign) r calls r')
    (fun _ hround => .stop hround) (fun _ _ _ _ _ _ hround hrest => .more hround hrest) h

end Loop

/-- What happens to a receiver: a `put` begins, its loop makes a pass, a request pushes a
recognizer, and the leftover is cleared. -/
inductive Event
  | insert (data : Bytes)
  | pass
  | push (k : ReplyRecognizer)
  | clearLeftover
  deriving DecidableEq

structure Account where
  receiver : GrammarReceiver
  removed : Bytes

namespace Account

def step (sign : CharSign) (a : Account) : Event → Account
  | .insert data => { a with receiver := a.receiver.insert data }
  | .pass =>
      let r := (a.receiver.pass sign).2.2
      let eaten := a.receiver.savedData.length - r.savedData.length
      ⟨r, a.removed ++ a.receiver.savedData.take eaten⟩
  | .push k => { a with receiver := a.receiver.push [k] }
  | .clearLeftover => { a with receiver := a.receiver.clearLeftover }

def Balanced (a : Account) : Prop :=
  a.removed ++ a.receiver.savedData = a.receiver.totalSavedData

theorem Balanced.step {a : Account} (h : a.Balanced) (sign : CharSign) {e : Event}
    (he : e ≠ .clearLeftover) : (a.step sign e).Balanced := by
  cases e with
  | insert data =>
      rw [Balanced, Account.step, GrammarReceiver.insert, ← List.append_assoc, h]
  | push k => exact h
  | clearLeftover => exact absurd rfl he
  | pass =>
      obtain ⟨repeats, calls, r', hpass⟩ :
          ∃ repeats calls r', a.receiver.pass sign = (repeats, calls, r') := ⟨_, _, _, rfl⟩
      rw [Balanced, Account.step, hpass]
      cases repeats with
      | false =>
          obtain ⟨_, _, rfl⟩ := pass_of_end.mp hpass
          rw [Nat.sub_self, List.take_zero, List.append_nil]
          exact h
      | true =>
          obtain ⟨htotal, u, hsaved, _⟩ := exists_of_round (pass_of_repeat.mp hpass)
          have hlen : a.receiver.savedData.length - r'.savedData.length = u.length := by
            rw [hsaved, List.length_append, Nat.add_sub_cancel]
          rw [hlen, htotal, ← h, hsaved, List.take_left, List.append_assoc]

theorem Balanced.foldl {a : Account} (h : a.Balanced) (sign : CharSign) {es : List Event}
    (hes : .clearLeftover ∉ es) : (es.foldl (Account.step sign) a).Balanced := by
  induction es generalizing a with
  | nil => exact h
  | cons e es ih =>
      rw [List.mem_cons, not_or] at hes
      exact ih (h.step sign (Ne.symm hes.1)) hes.2

/-- The passes of the loop of `put`, one after the other. -/
theorem receiver_foldl_pass {sign : CharSign} {fuel i n : ℕ} {r r' : GrammarReceiver}
    {calls : List Callback} (h : putLoop sign (fun _ => []) fuel i r = some (n, calls, r')) :
    ∀ removed, ((List.replicate n Event.pass).foldl (Account.step sign) ⟨r, removed⟩).receiver =
      r' := by
  refine putLoop_rule (motive := fun r n _ r' => ∀ removed,
    ((List.replicate n Event.pass).foldl (Account.step sign) ⟨r, removed⟩).receiver = r') ?_ ?_ h
  · intro r hround removed
    change (r.pass sign).2.2 = r
    rw [pass_of_end.mpr ⟨hround, rfl, rfl⟩]
  · intro r calls mid n more r' hround hrest removed
    rw [List.replicate_succ, List.foldl_cons, Account.step]
    simp only [pass_of_repeat.mpr hround]
    exact hrest _

end Account

/-- For every receiver and every data: an `eat` removes at least two bytes from the front or
does nothing, and so does the grammar of one name and value; the loop ends after at most half
of the buffered bytes and one more pass, and without pushes in the meantime it ends as `put`
does; and as long as the leftover is not cleared, the removed bytes and the buffered ones are
all that have arrived. -/
theorem put_terminates (sign : CharSign) (r : GrammarReceiver) (data : Bytes) :
    (∀ (d : DefaultRecognizer) saved, (eatFrom d.eat saved).Proper saved) ∧
    (∀ (k : ReplyRecognizer) saved, (eatFrom (k.eat sign) saved).Proper saved) ∧
    (∀ saved entry rest, replyNameValueGrammar sign saved = some (entry, rest) →
      ∃ u, saved = u ++ rest ∧ 2 ≤ u.length) ∧
    (∀ pushed, ∃ n calls r', n ≤ (r.savedData ++ data).length / 2 + 1 ∧
      ∀ fuel, n ≤ fuel → putLoop sign pushed fuel 0 (r.insert data) = some (n, calls, r')) ∧
    (∃ n ≤ (r.savedData ++ data).length / 2 + 1,
      putLoop sign (fun _ => []) n 0 (r.insert data) = some (n, put sign r data) ∧
      ∀ removed, ((.insert data :: List.replicate n .pass).foldl (Account.step sign)
        ⟨r, removed⟩).receiver = (put sign r data).2) ∧
    ∀ (a : Account) (es : List Event), a.Balanced → .clearLeftover ∉ es →
      (es.foldl (Account.step sign) a).Balanced := by
  refine ⟨fun d => eatFrom_proper d.exactFrom_eat.exact d.consumes_eat,
    fun k => eatFrom_proper (k.exactFrom_eat sign).exact (k.consumes_eat sign), ?_,
    fun pushed => exists_putLoop sign pushed 0 (r.insert data), ?_,
    fun a es ha hes => ha.foldl sign hes⟩
  · intro saved entry rest h
    exact (exactFrom_replyNameValueGrammar sign).exact.exists_consumed
      (consumes_replyNameValueGrammar sign) h
  · obtain ⟨n, calls, r', hn, hloop⟩ := exists_putLoop sign (fun _ => []) 0 (r.insert data)
    have hput := put_eq_of_exhausts (exhausts_of_putLoop (hloop n (Nat.le_refl n)))
    rw [hput]
    exact ⟨n, hn, hloop n (Nat.le_refl n), Account.receiver_foldl_pass (hloop n (Nat.le_refl n))⟩

end GrammarReceiver

end Debugger

end UnifyFramework
