import UnifyFramework.Debugger.Receiver

/-!
# Chunking independence of `put`

Duktape calls the write callback once per tag byte, length field and payload, so
`put` sees every message in fragments and parses each prefix again. Because every
grammar is exact, a round of the loop does the same when more bytes stand behind
the ones it looks at; hence it makes no difference where the stream is cut.
-/

namespace UnifyFramework

namespace Debugger

open Transition

namespace GrammarReceiver

theorem insert_insert (r : GrammarReceiver) (a b : Bytes) :
    (r.insert a).insert b = r.insert (a ++ b) := by
  simp only [insert, List.append_assoc]

/-- A round is not changed by bytes that arrive behind it. -/
theorem round_insert {sign : CharSign} (more : Bytes) (r : GrammarReceiver)
    (calls : List Callback) (r' : GrammarReceiver) (h : round sign r = some (calls, r')) :
    round sign (r.insert more) = some (calls, r'.insert more) := by
  rcases round_cases h with ⟨d, rest, hd, rfl⟩ | ⟨k, queue, rest, hqueue, hk, rfl⟩
  · exact round_of_default (d.exactFrom_eat.exact.append hd more)
  · exact round_of_reply (r := r.insert more) hqueue
      ((k.exactFrom_eat sign).exact.append hk more)

theorem put_append (sign : CharSign) (r : GrammarReceiver) (a b : Bytes) :
    put sign r (a ++ b) =
      ((put sign r a).1 ++ (put sign (put sign r a).2 b).1,
        (put sign (put sign r a).2 b).2) := by
  apply put_eq_of_exhausts
  rw [← insert_insert]
  exact (exhausts_put sign r a).lift (f := fun s => s.insert b) (round_insert b)
    (exhausts_put sign (put sign r a).2 b)

/-- For every receiver state, putting two byte strings one after the other and
putting their concatenation give the same calls and the same receiver; so do all
ways of cutting a stream into fragments. -/
theorem put_chunking_independent (sign : CharSign) (r : GrammarReceiver) :
    (∀ a b : Bytes, put sign r (a ++ b) =
      ((put sign r a).1 ++ (put sign (put sign r a).2 b).1,
        (put sign (put sign r a).2 b).2)) ∧
    ∀ (data : Bytes) (rest : List Bytes),
      putAll sign r (data :: rest) = put sign r (data :: rest).flatten := by
  refine ⟨put_append sign r, ?_⟩
  intro data rest
  induction rest generalizing r data with
  | nil => simp [putAll]
  | cons next rest ih =>
      have hrest := ih (put sign r data).2 next
      rw [putAll, hrest]
      exact (put_append sign r data (next :: rest).flatten).symm

end GrammarReceiver

end Debugger

end UnifyFramework
