import UnifyFramework.Debugger.Message
import UnifyFramework.Transition.Loop

/-!
# The grammar receiver

`GrammarReceiver::put` appends the bytes Duktape wrote to `savedData` and then
lets recognizers eat messages from its front. The three default recognizers are
tried first, in the order `InitDefaultRecognizers` installs them, and then the
head of `recognizerQueue`, which is removed when it has eaten. The loop goes on as
long as some recognizer eats. A recognizer without a receiver eats silently.
-/

namespace UnifyFramework

namespace Debugger

open Parsing Parsing.Parser Transition

/-- A call of one of the receivers of `GrammarReceiver`, with the decoded argument. -/
inductive Callback
  | versionIdentificationReceiver (value : VersionIdentification)
  | statusNotificationReceiver (value : StatusNotification)
  | exceptionNotificationReceiver (value : ExceptionNotification)
  | replyAddBreakpointReceiver (value : ReplyInt)
  | replyRemoveBreakpointReceiver (value : Reply)
  | replyNameValueArrayReceiver (value : ReplyNameValueArray)
  deriving DecidableEq, Repr

/-- The recognizers installed by `InitDefaultRecognizers`. -/
inductive DefaultRecognizer
  | versionIdentification
  | statusNotification
  | exceptionNotification
  deriving DecidableEq, Repr

/-- The recognizers the `Create*Request` functions push: the reply grammar without a
receiver (Pause, Resume and the three steps), the reply grammar with the
RemoveBreakpoint receiver, and the replies of AddBreakpoint and GetLocals. -/
inductive ReplyRecognizer
  | reply
  | replyRemoveBreakpoint
  | replyAddBreakpoint
  | replyNameValueArray
  deriving DecidableEq, Repr

/-- `Recognizer::eat` for a grammar and a receiver. On success the bytes the grammar
consumed are erased from the front of the data, so `eat` is itself a parser of receiver
calls. -/
def eatWith {α : Type} (grammar : Parser UInt8 α) (callback : α → List Callback) :
    Parser UInt8 (List Callback) := do
  let result ← grammar
  pure (callback result)

def DefaultRecognizer.eat : DefaultRecognizer → Parser UInt8 (List Callback)
  | .versionIdentification =>
      eatWith versionIdentificationGrammar fun v => [.versionIdentificationReceiver v]
  | .statusNotification =>
      eatWith statusNotificationGrammar fun v => [.statusNotificationReceiver v]
  | .exceptionNotification =>
      eatWith exceptionNotificationGrammar fun v => [.exceptionNotificationReceiver v]

def ReplyRecognizer.eat (sign : CharSign) : ReplyRecognizer → Parser UInt8 (List Callback)
  | .reply => eatWith replyGrammar fun _ => []
  | .replyRemoveBreakpoint => eatWith replyGrammar fun v => [.replyRemoveBreakpointReceiver v]
  | .replyAddBreakpoint => eatWith replyIntGrammar fun v => [.replyAddBreakpointReceiver v]
  | .replyNameValueArray =>
      eatWith (replyNameValueArrayGrammar sign) fun v => [.replyNameValueArrayReceiver v]

def defaultRecognizers : List DefaultRecognizer :=
  [.versionIdentification, .statusNotification, .exceptionNotification]

/-- The data members of `GrammarReceiver` that `put` reads and writes. -/
structure GrammarReceiver where
  totalSavedData : Bytes
  savedData : Bytes
  recognizerQueue : List ReplyRecognizer
  deriving DecidableEq, Repr

namespace GrammarReceiver

/-- The two `insert` calls at the start of `put`. -/
def insert (r : GrammarReceiver) (data : Bytes) : GrammarReceiver :=
  { r with
    totalSavedData := r.totalSavedData ++ data
    savedData := r.savedData ++ data }

/-- One round of the do-while loop of `put`; `none` when no recognizer eats. -/
def round (sign : CharSign) (r : GrammarReceiver) : Option (List Callback × GrammarReceiver) :=
  match defaultRecognizers.findSome? fun d => d.eat r.savedData with
  | some (calls, rest) => some (calls, { r with savedData := rest })
  | none =>
      match r.recognizerQueue with
      | [] => none
      | k :: queue =>
          match k.eat sign r.savedData with
          | none => none
          | some (calls, rest) =>
              some (calls, { r with savedData := rest, recognizerQueue := queue })

/-- `GrammarReceiver::put`, with the receiver calls it makes. -/
def put (sign : CharSign) (r : GrammarReceiver) (data : Bytes) :
    List Callback × GrammarReceiver :=
  exhaust (round sign) ((r.insert data).savedData.length + 1) (r.insert data)

/-- The calls of `put` for the fragments of a stream, one after the other. -/
def putAll (sign : CharSign) : GrammarReceiver → List Bytes → List Callback × GrammarReceiver
  | r, [] => ([], r)
  | r, data :: rest =>
      let first := put sign r data
      let others := putAll sign first.2 rest
      (first.1 ++ others.1, others.2)

def clearLeftover (r : GrammarReceiver) : GrammarReceiver := { r with savedData := [] }

end GrammarReceiver

theorem exactFrom_eatWith {α : Type} {S : Set UInt8} {grammar : Parser UInt8 α}
    (hg : ExactFrom S grammar) (callback : α → List Callback) :
    ExactFrom S (eatWith grammar callback) :=
  hg.bind fun _ => exact_pure _

theorem ReplyRecognizer.exactFrom_eat (sign : CharSign) (k : ReplyRecognizer) :
    ExactFrom {rep} (k.eat sign) := by
  cases k with
  | reply => exact exactFrom_eatWith exactFrom_replyGrammar _
  | replyRemoveBreakpoint => exact exactFrom_eatWith exactFrom_replyGrammar _
  | replyAddBreakpoint => exact exactFrom_eatWith exactFrom_replyIntGrammar _
  | replyNameValueArray =>
      exact exactFrom_eatWith (exactFrom_replyNameValueArrayGrammar sign) _

def DefaultRecognizer.first : DefaultRecognizer → Set UInt8
  | .versionIdentification => {c | 0x31 ≤ c.toNat ∧ c.toNat ≤ 0x39}
  | .statusNotification => {nfy}
  | .exceptionNotification => {nfy}

theorem DefaultRecognizer.exactFrom_eat (d : DefaultRecognizer) : ExactFrom d.first d.eat := by
  cases d with
  | versionIdentification => exact exactFrom_eatWith exactFrom_versionIdentificationGrammar _
  | statusNotification => exact exactFrom_eatWith exactFrom_statusNotificationGrammar _
  | exceptionNotification => exact exactFrom_eatWith exactFrom_exceptionNotificationGrammar _

theorem DefaultRecognizer.rep_not_mem_first (d : DefaultRecognizer) : rep ∉ d.first := by
  cases d <;> simp [DefaultRecognizer.first, rep, nfy]

theorem version_first_ne_nfy : nfy ∉ DefaultRecognizer.versionIdentification.first := by
  simp [DefaultRecognizer.first, nfy]

theorem eat_notification_eq_none {α : Type} {c d e : UInt8} (h : e ≠ d)
    (f : Parser UInt8 α) (callback : α → List Callback) (m : Bytes) :
    eatWith (charLit c >>= fun _ => charLit d >>= fun _ => f) callback (c :: e :: m) = none := by
  simp [eatWith, bind_apply, charLit, satisfy_cons, h]

theorem exists_of_eat_notification {α : Type} {c d : UInt8} {f : Parser UInt8 α}
    {callback : α → List Callback} {data rest : Bytes} {calls : List Callback}
    (h : eatWith (charLit c >>= fun _ => charLit d >>= fun _ => f) callback data =
      some (calls, rest)) : ∃ m, data = c :: d :: m := by
  obtain ⟨a, m₀, h₀, _⟩ := (bind_eq_some_iff _ _ _ _ _).mp h
  obtain ⟨x, m₁, hx, h₁⟩ := (bind_eq_some_iff _ _ _ _ _).mp h₀
  obtain ⟨y, m₂, hy, _⟩ := (bind_eq_some_iff _ _ _ _ _).mp h₁
  obtain ⟨rfl, hc⟩ := (satisfy_eq_some_iff _ _ _ _).mp hx
  obtain ⟨rfl, hd⟩ := (satisfy_eq_some_iff _ _ _ _).mp hy
  rw [of_decide_eq_true hc, of_decide_eq_true hd]
  exact ⟨m₂, rfl⟩

/-- The version is not read from a notification. -/
theorem eat_version_eq_none (t : Bytes) :
    DefaultRecognizer.versionIdentification.eat (nfy :: t) = none :=
  (DefaultRecognizer.exactFrom_eat .versionIdentification).first.cons_eq_none
    version_first_ne_nfy t

theorem DefaultRecognizer.eat_eq_none_of_ne {d d' : DefaultRecognizer} (hne : d' ≠ d)
    {data rest : Bytes} {calls : List Callback} (h : d.eat data = some (calls, rest)) :
    d'.eat data = none := by
  obtain ⟨c, m, hdata, hc⟩ := d.exactFrom_eat.first data calls rest h
  cases d with
  | versionIdentification =>
      rw [hdata]
      apply d'.exactFrom_eat.first.cons_eq_none
      cases d' with
      | versionIdentification => exact absurd rfl hne
      | statusNotification =>
          rintro rfl
          exact version_first_ne_nfy hc
      | exceptionNotification =>
          rintro rfl
          exact version_first_ne_nfy hc
  | statusNotification =>
      obtain ⟨m', rfl⟩ := exists_of_eat_notification h
      cases d' with
      | versionIdentification => exact eat_version_eq_none _
      | statusNotification => exact absurd rfl hne
      | exceptionNotification => exact eat_notification_eq_none (by decide) _ _ _
  | exceptionNotification =>
      obtain ⟨m', rfl⟩ := exists_of_eat_notification h
      cases d' with
      | versionIdentification => exact eat_version_eq_none _
      | statusNotification => exact eat_notification_eq_none (by decide) _ _ _
      | exceptionNotification => exact absurd rfl hne

namespace GrammarReceiver

theorem mem_defaultRecognizers (d : DefaultRecognizer) : d ∈ defaultRecognizers := by
  cases d <;> simp [defaultRecognizers]

theorem findSome?_eat_eq_none_iff (data : Bytes) :
    (defaultRecognizers.findSome? fun d => d.eat data) = none ↔
      ∀ d : DefaultRecognizer, d.eat data = none := by
  rw [List.findSome?_eq_none_iff]
  exact ⟨fun h d => h d (mem_defaultRecognizers d), fun h d _ => h d⟩

theorem findSome?_eat_of_eat {d : DefaultRecognizer} {data rest : Bytes}
    {calls : List Callback} (h : d.eat data = some (calls, rest)) :
    (defaultRecognizers.findSome? fun d => d.eat data) = some (calls, rest) := by
  cases hfind : defaultRecognizers.findSome? fun d => d.eat data with
  | none =>
      have hnone := (findSome?_eat_eq_none_iff data).mp hfind d
      rw [h] at hnone
      cases hnone
  | some x =>
      obtain ⟨d', _, hd'⟩ := List.exists_of_findSome?_eq_some hfind
      by_cases heq : d' = d
      · rw [heq, h] at hd'
        exact hd'.symm
      · rw [DefaultRecognizer.eat_eq_none_of_ne heq h] at hd'
        cases hd'

theorem round_of_default {sign : CharSign} {r : GrammarReceiver} {d : DefaultRecognizer}
    {calls : List Callback} {rest : Bytes} (h : d.eat r.savedData = some (calls, rest)) :
    round sign r = some (calls, { r with savedData := rest }) := by
  simp only [round, findSome?_eat_of_eat h]

theorem round_of_reply {sign : CharSign} {r : GrammarReceiver} {k : ReplyRecognizer}
    {queue : List ReplyRecognizer} {calls : List Callback} {rest : Bytes}
    (hqueue : r.recognizerQueue = k :: queue)
    (h : k.eat sign r.savedData = some (calls, rest)) :
    round sign r = some (calls, { r with savedData := rest, recognizerQueue := queue }) := by
  obtain ⟨c, m, hdata, rfl⟩ := (k.exactFrom_eat sign).first _ _ _ h
  have hnone : (defaultRecognizers.findSome? fun d => d.eat r.savedData) = none := by
    rw [findSome?_eat_eq_none_iff, hdata]
    exact fun d => d.exactFrom_eat.first.cons_eq_none d.rep_not_mem_first m
  simp only [round, hnone, hqueue, h]

/-- A round either lets one default recognizer eat, or the head of the queue. -/
theorem round_cases {sign : CharSign} {r r' : GrammarReceiver} {calls : List Callback}
    (h : round sign r = some (calls, r')) :
    (∃ d rest, DefaultRecognizer.eat d r.savedData = some (calls, rest) ∧
      r' = { r with savedData := rest }) ∨
    ∃ k queue rest, r.recognizerQueue = k :: queue ∧
      ReplyRecognizer.eat sign k r.savedData = some (calls, rest) ∧
      r' = { r with savedData := rest, recognizerQueue := queue } := by
  unfold round at h
  cases hfind : defaultRecognizers.findSome? fun d => d.eat r.savedData with
  | some x =>
      obtain ⟨d, _, hd⟩ := List.exists_of_findSome?_eq_some hfind
      rw [hfind] at h
      obtain ⟨rfl, rfl⟩ := Prod.mk.inj (Option.some.inj h)
      exact Or.inl ⟨d, x.2, hd, rfl⟩
  | none =>
      rw [hfind] at h
      cases hqueue : r.recognizerQueue with
      | nil =>
          rw [hqueue] at h
          cases h
      | cons k queue =>
          simp only [hqueue] at h
          cases hk : k.eat sign r.savedData with
          | none =>
              rw [hk] at h
              cases h
          | some x =>
              rw [hk] at h
              obtain ⟨rfl, rfl⟩ := Prod.mk.inj (Option.some.inj h)
              exact Or.inr ⟨k, queue, x.2, rfl, hk, rfl⟩

/-- The loop stops exactly where no recognizer in turn eats. -/
theorem round_eq_none_of {sign : CharSign} {r : GrammarReceiver}
    (hdefault : ∀ d : DefaultRecognizer, d.eat r.savedData = none)
    (hreply : ∀ k queue, r.recognizerQueue = k :: queue → k.eat sign r.savedData = none) :
    round sign r = none := by
  cases h : round sign r with
  | none => rfl
  | some x =>
      rcases round_cases h with ⟨d, rest, hd, _⟩ | ⟨k, queue, rest, hqueue, hk, _⟩
      · rw [hdefault d] at hd
        cases hd
      · rw [hreply k queue hqueue] at hk
        cases hk

/-- Every round removes at least one byte from `savedData`. -/
theorem length_of_round (sign : CharSign) (r : GrammarReceiver) (calls : List Callback)
    (r' : GrammarReceiver) (h : round sign r = some (calls, r')) :
    r'.savedData.length < r.savedData.length := by
  rcases round_cases h with ⟨d, rest, hd, rfl⟩ | ⟨k, queue, rest, _, hk, rfl⟩
  · exact d.exactFrom_eat.progress _ _ _ hd
  · exact (k.exactFrom_eat sign).progress _ _ _ hk

/-- The loop of `put` runs to its end: the fuel is never used up. -/
theorem exhausts_put (sign : CharSign) (r : GrammarReceiver) (data : Bytes) :
    Exhausts (round sign) (r.insert data) (put sign r data).1 (put sign r data).2 :=
  exhausts_exhaust (length_of_round sign) _ _ (Nat.lt_succ_self _)

theorem put_eq_of_exhausts {sign : CharSign} {r r' : GrammarReceiver} {data : Bytes}
    {calls : List Callback} (h : Exhausts (round sign) (r.insert data) calls r') :
    put sign r data = (calls, r') :=
  exhaust_eq_of_exhausts (length_of_round sign) (Nat.lt_succ_self _) h

end GrammarReceiver

end Debugger

end UnifyFramework
