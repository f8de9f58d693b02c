import UnifyFramework.Debugger.Received

/-!
# A whole message at an empty buffer

Duktape sends one message and the receiver has nothing else in its buffer. The
message is received if it is supported, and otherwise it stays in the buffer as a
whole. So a notification is lost as soon as a line number or a program counter needs
the four-byte integer form, and a GetLocals reply as soon as one variable has a value
the grammars have no form for.
-/

namespace UnifyFramework

namespace Debugger

open Parsing Parsing.Parser Duktape Transition

theorem put_of_not_supported (sign : CharSign) (total : Bytes) {m : DukMessage}
    {queue queue' : List ReplyRecognizer} {calls : List Callback}
    (hrec : receive m queue = some (calls, queue')) (hm : ¬ m.Supported) :
    GrammarReceiver.put sign ⟨total, [], queue⟩ m.bytes =
      ([], ⟨total ++ m.bytes, m.bytes, queue⟩) := by
  apply GrammarReceiver.put_eq_of_exhausts
  have hround := GrammarReceiver.round_of_not_supported sign hrec hm (total ++ m.bytes) []
  rw [List.append_nil] at hround
  exact Exhausts.stop hround

namespace GrammarReceiver

/-- Putting the data makes the one call and leaves nothing in `savedData`. -/
def Delivers (sign : CharSign) (r : GrammarReceiver) (data : Bytes) (call : Callback) : Prop :=
  (r.put sign data).1 = [call] ∧ (r.put sign data).2.savedData = []

instance (sign : CharSign) (r : GrammarReceiver) (data : Bytes) (call : Callback) :
    Decidable (r.Delivers sign data call) :=
  inferInstanceAs (Decidable (_ ∧ _))

/-- A message with one receiver call is delivered exactly if it is supported. -/
theorem delivers_iff_supported (sign : CharSign) {r : GrammarReceiver} (hempty : r.savedData = [])
    {m : DukMessage} {queue' : List ReplyRecognizer} {call : Callback}
    (hrec : receive m r.recognizerQueue = some ([call], queue')) :
    r.Delivers sign m.bytes call ↔ m.Supported := by
  obtain ⟨total, saved, queue⟩ := r
  cases hempty
  constructor
  · rintro ⟨hcalls, _⟩
    by_contra hm
    rw [put_of_not_supported sign total hrec hm] at hcalls
    cases hcalls
  · intro hm
    rw [Delivers, put_message sign total hrec hm]
    exact ⟨rfl, rfl⟩

theorem intSupported_flag (flag : Bool) : IntSupported (if flag then 1 else 0) := by
  cases flag <;> decide

/-- Status and Throw notifications are delivered with their values exactly if the line
number, and the program counter, have one of the two short integer forms. -/
theorem notifications_delivered_iff (sign : CharSign) (r : GrammarReceiver)
    (hempty : r.savedData = []) :
    (∀ (paused : Bool) (fileName funcName : Bytes) (line pc : UInt32),
      fileName.length ≤ 65535 → funcName.length ≤ 65535 → line.toNat < 2 ^ 31 →
      pc.toNat < 2 ^ 31 →
      (r.Delivers sign
        (dukDebugSendStatus (if paused then 1 else 0) (some ⟨fileName, funcName, line, pc⟩))
        (.statusNotificationReceiver
          ⟨if paused then 1 else 0, fileName, funcName, line.toNat, pc.toNat⟩) ↔
        line.toNat ≤ 16383 ∧ pc.toNat ≤ 16383)) ∧
    ∀ (fatal : Bool) (msg fileName : Bytes) (line : UInt32),
      msg.length ≤ 65535 → fileName.length ≤ 65535 → line.toNat < 2 ^ 31 →
      (r.Delivers sign (dukDebugSendThrow (if fatal then 1 else 0) msg fileName line)
        (.exceptionNotificationReceiver ⟨if fatal then 1 else 0, msg, fileName, line.toNat⟩) ↔
        line.toNat ≤ 16383) := by
  have hflag : ∀ flag : Bool, ((if flag then 1 else 0 : Int32)).toInt = if flag then 1 else 0 := by
    intro flag
    cases flag <;> rfl
  constructor
  · intro paused fileName funcName line pc hfile hfunc _ _
    have hrec : receive (.status (if paused then 1 else 0) (some ⟨fileName, funcName, line, pc⟩))
        r.recognizerQueue = some ([.statusNotificationReceiver
          ⟨if paused then 1 else 0, fileName, funcName, line.toNat, pc.toNat⟩],
          r.recognizerQueue) := by
      rw [receive, statusNotification, hflag]
    refine (delivers_iff_supported sign hempty hrec).trans ?_
    simp [DukMessage.Supported, Activation.Supported, intSupported_flag, StrSupported, hfile, hfunc]
  · intro fatal msg fileName line hmsg hfile _
    have hrec : receive (.throw (if fatal then 1 else 0) msg fileName line) r.recognizerQueue =
        some ([.exceptionNotificationReceiver ⟨if fatal then 1 else 0, msg, fileName, line.toNat⟩],
          r.recognizerQueue) := by
      rw [receive, hflag]
    refine (delivers_iff_supported sign hempty hrec).trans ?_
    simp [DukMessage.Supported, intSupported_flag, StrSupported, hmsg, hfile]

/-- The program stops on line 16383 of a file. -/
theorem notifications_delivered_lastLine :
    Delivers .signed ⟨[], [], [.reply]⟩
      (dukDebugSendStatus 1 (some ⟨[0x61], [0x66], 16383, 7⟩))
      (.statusNotificationReceiver ⟨1, [0x61], [0x66], 16383, 7⟩) :=
  ((notifications_delivered_iff .signed ⟨[], [], [.reply]⟩ rfl).1 true [0x61] [0x66] 16383 7
    (by decide) (by decide) (by decide) (by decide)).mpr (by decide)

/-- One instruction further in a long function the notification stays in the buffer. -/
theorem notifications_not_delivered_longFunction :
    ¬ Delivers .signed ⟨[], [], []⟩ (dukDebugSendStatus 1 (some ⟨[0x61], [0x66], 1, 16384⟩))
        (.statusNotificationReceiver ⟨1, [0x61], [0x66], 1, 16384⟩) ∧
      put .signed ⟨[], [], []⟩ (dukDebugSendStatus 1 (some ⟨[0x61], [0x66], 1, 16384⟩)) =
        ([], ⟨dukDebugSendStatus 1 (some ⟨[0x61], [0x66], 1, 16384⟩),
          dukDebugSendStatus 1 (some ⟨[0x61], [0x66], 1, 16384⟩), []⟩) := by
  decide

/-- The GetLocals reply is decoded, with one entry for each variable in their order, its
recognizer leaves the queue and nothing is left in `savedData`. -/
def DecodesLocals (sign : CharSign) (r : GrammarReceiver) (queue : List ReplyRecognizer)
    (vars : List (Bytes × DukTval)) : Prop :=
  ∃ entries : List ReplyNameValue, entries.map ReplyNameValue.name = vars.map Prod.fst ∧
    r.put sign (dukDebugWriteReply (.locals vars)) = ([.replyNameValueArrayReceiver ⟨entries⟩],
      ⟨r.totalSavedData ++ dukDebugWriteReply (.locals vars), [], queue⟩)

/-- A GetLocals reply is decoded exactly if every name has at most a 16-bit length and every
value is supported; the entries are then those of the variables. -/
theorem getLocals_decoded_iff (sign : CharSign) (r : GrammarReceiver)
    (queue : List ReplyRecognizer) (vars : List (Bytes × DukTval)) (hempty : r.savedData = [])
    (hqueue : r.recognizerQueue = .replyNameValueArray :: queue) :
    (r.DecodesLocals sign queue vars ↔ ∀ var ∈ vars, var.1.length ≤ 65535 ∧ var.2.Supported) ∧
    ((∀ var ∈ vars, var.1.length ≤ 65535 ∧ var.2.Supported) →
      (r.put sign (dukDebugWriteReply (.locals vars))).1 =
        [.replyNameValueArrayReceiver ⟨vars.map nameValue⟩]) := by
  obtain ⟨total, saved, _⟩ := r
  cases hempty
  cases hqueue
  have hrec : receive (.reply (.locals vars)) (.replyNameValueArray :: queue) =
      some ([.replyNameValueArrayReceiver ⟨vars.map nameValue⟩], queue) := rfl
  have hput : (∀ var ∈ vars, var.1.length ≤ 65535 ∧ var.2.Supported) →
      put sign ⟨total, [], .replyNameValueArray :: queue⟩ (dukDebugWriteReply (.locals vars)) =
        ([.replyNameValueArrayReceiver ⟨vars.map nameValue⟩],
          ⟨total ++ dukDebugWriteReply (.locals vars), [], queue⟩) :=
    fun h => put_message sign total hrec h
  refine ⟨⟨?_, fun h => ⟨vars.map nameValue, ?_, hput h⟩⟩, fun h => by rw [hput h]⟩
  · rintro ⟨entries, _, hdecoded⟩
    by_contra hnot
    have hstuck := put_of_not_supported sign total hrec hnot
    have hcalls := congrArg Prod.fst (hdecoded.symm.trans hstuck)
    cases hcalls
  · rw [List.map_map]
    rfl

/-- A number and an object are decoded. -/
theorem getLocals_decoded_numberAndObject :
    DecodesLocals .signed ⟨[], [], [.replyNameValueArray, .reply]⟩ [.reply]
        [([0x78], .number 0x3ff0000000000000), ([0x79], .object 1 ⟨[0, 0, 2, 4], Or.inl rfl⟩)] ∧
      (put .signed ⟨[], [], [.replyNameValueArray, .reply]⟩ (dukDebugWriteReply (.locals
        [([0x78], .number 0x3ff0000000000000), ([0x79], .object 1 ⟨[0, 0, 2, 4], Or.inl rfl⟩)]))).1 =
      [.replyNameValueArrayReceiver ⟨[⟨[0x78], .double 0x3ff0000000000000⟩,
        ⟨[0x79], .jsClass ⟨1, [0, 0, 2, 4]⟩⟩]⟩] :=
  have h := getLocals_decoded_iff .signed ⟨[], [], [.replyNameValueArray, .reply]⟩ [.reply]
    [([0x78], .number 0x3ff0000000000000), ([0x79], .object 1 ⟨[0, 0, 2, 4], Or.inl rfl⟩)] rfl rfl
  ⟨h.1.mpr (by decide), h.2 (by decide)⟩

/-- With a buffer of one byte among the variables nothing is decoded: the reply stays in
the buffer and its recognizer on the queue. -/
theorem getLocals_not_decoded_buffer :
    ¬ DecodesLocals .signed ⟨[], [], [.replyNameValueArray]⟩ []
        [([0x78], .null), ([0x62], .buffer [0x01])] ∧
      put .signed ⟨[], [], [.replyNameValueArray]⟩
          (dukDebugWriteReply (.locals [([0x78], .null), ([0x62], .buffer [0x01])])) =
        ([], ⟨dukDebugWriteReply (.locals [([0x78], .null), ([0x62], .buffer [0x01])]),
          dukDebugWriteReply (.locals [([0x78], .null), ([0x62], .buffer [0x01])]),
          [.replyNameValueArray]⟩) := by
  refine ⟨?_, by decide⟩
  rintro ⟨entries, _, hput⟩
  have hcalls := congrArg Prod.fst hput
  exact absurd (hcalls.symm.trans (by decide : _ = [])) (List.cons_ne_nil _ _)

end GrammarReceiver

end Debugger

end UnifyFramework
