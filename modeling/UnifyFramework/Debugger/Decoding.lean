import UnifyFramework.Debugger.Chunking
import UnifyFramework.Duktape.Write
import UnifyFramework.Parsing.Decodes

/-!
# Decoding what Duktape writes

The receiver at the level of messages: `DukMessage.receive` is what one whole
message is meant to do, which receivers it calls and what it leaves of the
recognizer queue. The grammars decode every dvalue in the supported set and
refuse every other one, so a round of `put` carries out `receive` on a supported
message and does nothing in front of any other. A stream of supported messages
that answers the queued requests in order is therefore decoded message by message.
-/

namespace UnifyFramework

namespace Debugger

open Parsing Parsing.Parser Duktape Transition

/-- The value stored for a local variable. The grammars have no form for pointers,
lightfuncs and buffers, so nothing is ever stored for those. -/
def varType : DukTval → VarType
  | .undefined => .string (ascii ['u', 'n', 'd', 'e', 'f', 'i', 'n', 'e', 'd'])
  | .unused => .string (ascii ['u', 'n', 'u', 's', 'e', 'd', '/', 'n', 'o', 'n', 'e'])
  | .null => .string (ascii ['n', 'u', 'l', 'l'])
  | .boolean true => .string (ascii ['t', 'r', 'u', 'e'])
  | .boolean false => .string (ascii ['f', 'a', 'l', 's', 'e'])
  | .pointer value => .string value.bytes
  | .lightfunc _ func => .string func.bytes
  | .string data => .string data
  | .object classNumber heapptr => .jsClass ⟨(classNumber : ℕ), heapptr.bytes⟩
  | .buffer data => .string data
  | .number bits => .double bits

def nameValue (var : Bytes × DukTval) : ReplyNameValue := ⟨var.1, varType var.2⟩

/-- With an empty callstack the names are sent as `undefined` and the numbers as 0. -/
def statusNotification (paused : Int32) : Option Activation → StatusNotification
  | none =>
      ⟨paused.toInt, ascii ['u', 'n', 'd', 'e', 'f', 'i', 'n', 'e', 'd'],
        ascii ['u', 'n', 'd', 'e', 'f', 'i', 'n', 'e', 'd'], 0, 0⟩
  | some act => ⟨paused.toInt, act.fileName, act.funcName, act.line.toNat, act.pc.toNat⟩

def replyCalls : DukReply → ReplyRecognizer → Option (List Callback)
  | .empty, .reply => some []
  | .empty, .replyRemoveBreakpoint => some [.replyRemoveBreakpointReceiver ⟨[]⟩]
  | .index idx, .replyAddBreakpoint => some [.replyAddBreakpointReceiver ⟨idx.toInt⟩]
  | .locals vars, .replyNameValueArray =>
      some [.replyNameValueArrayReceiver ⟨vars.map nameValue⟩]
  | _, _ => none

/-- The effect of one message: the receiver calls and the recognizers that are left.
A reply or an error answers the oldest request; it is `none` where Duktape does not
send such a message. -/
def receive : DukMessage → List ReplyRecognizer → Option (List Callback × List ReplyRecognizer)
  | .status paused activation, queue =>
      some ([.statusNotificationReceiver (statusNotification paused activation)], queue)
  | .throw fatal msg fileName line, queue =>
      some ([.exceptionNotificationReceiver ⟨fatal.toInt, msg, fileName, line.toNat⟩], queue)
  | .reply value, k :: queue => (replyCalls value k).map fun calls => (calls, queue)
  | .error _ _, _ :: queue => some ([], queue)
  | _, [] => none

def receiveAll :
    List DukMessage → List ReplyRecognizer → Option (List Callback × List ReplyRecognizer)
  | [], queue => some ([], queue)
  | m :: messages, queue => do
      let first ← receive m queue
      let rest ← receiveAll messages first.2
      pure (first.1 ++ rest.1, rest.2)

theorem receiveAll_cons_eq_some_iff {m : DukMessage} {messages : List DukMessage}
    {queue : List ReplyRecognizer} {x : List Callback × List ReplyRecognizer} :
    receiveAll (m :: messages) queue = some x ↔
      ∃ first rest, receive m queue = some first ∧ receiveAll messages first.2 = some rest ∧
        (first.1 ++ rest.1, rest.2) = x := by
  simp only [receiveAll, Option.bind_eq_bind, Option.bind_eq_some_iff, Option.pure_def,
    Option.some.injEq]
  constructor
  · rintro ⟨first, hfirst, rest, hrest, hx⟩
    exact ⟨first, rest, hfirst, hrest, hx⟩
  · rintro ⟨first, rest, hfirst, hrest, hx⟩
    exact ⟨first, hfirst, rest, hrest, hx⟩

theorem reads_charRange {lo hi c : UInt8} (h : lo.toNat ≤ c.toNat ∧ c.toNat ≤ hi.toNat) :
    Reads (charRange lo hi) [c] c := by
  apply reads_satisfy
  simpa [UInt8.le_iff_toNat_le] using h

theorem reads_charLit (c : UInt8) : Reads (charLit c) [c] c := by
  apply reads_satisfy
  simp

theorem reads_anyChar (c : UInt8) : Reads anyChar [c] c := reads_satisfy rfl

theorem reads_count_anyChar (data : Bytes) : Reads (count anyChar data.length) data data :=
  reads_count_satisfy fun _ _ => rfl

theorem reads_charLit_pure {α : Type} (c : UInt8) (a : α) :
    Reads (charLit c >>= fun _ => pure a) [c] a :=
  (reads_charLit c).bind_pure (f := fun _ => a)

theorem reads_bigWord {n : ℕ} (h : n < 65536) : Reads bigWord (bigEndian 2 n) n := by
  have hcount : Reads (count anyChar 2) (bigEndian 2 n) (bigEndian 2 n) :=
    reads_count_anyChar (bigEndian 2 n)
  have hread := hcount.bind_pure (f := ofBigEndian)
  rwa [ofBigEndian_bigEndian (by omega)] at hread

theorem reads_shortInteger {n : ℕ} (h : n ≤ 0x3f) :
    Reads shortInteger [UInt8.ofNat (0x80 + n)] n := by
  have hbyte : (UInt8.ofNat (0x80 + n)).toNat = 0x80 + n := UInt8.toNat_ofNat_of_lt' (by simp only [UInt8.size]; omega)
  have hchar : Reads (charRange 0x80 0xbf) [UInt8.ofNat (0x80 + n)] (UInt8.ofNat (0x80 + n)) := by
    apply reads_charRange
    rw [hbyte]
    simp only [UInt8.reduceToNat]
    omega
  have hread := hchar.bind_pure (f := fun c => (c.toNat : Int) - 0x80)
  simp only [hbyte] at hread
  rwa [show ((0x80 + n : ℕ) : Int) - 0x80 = n by omega] at hread

theorem reads_longInteger {n : ℕ} (h : n ≤ 0x3fff) :
    Reads longInteger [UInt8.ofNat (0xc0 + n / 256), UInt8.ofNat (n % 256)] n := by
  have hhigh : (UInt8.ofNat (0xc0 + n / 256)).toNat = 0xc0 + n / 256 :=
    UInt8.toNat_ofNat_of_lt' (by simp only [UInt8.size]; omega)
  have hlow : (UInt8.ofNat (n % 256)).toNat = n % 256 := UInt8.toNat_ofNat_of_lt' (by simp only [UInt8.size]; omega)
  have hchar : Reads (charRange 0xc0 0xff) [UInt8.ofNat (0xc0 + n / 256)]
      (UInt8.ofNat (0xc0 + n / 256)) := by
    apply reads_charRange
    rw [hhigh]
    simp only [UInt8.reduceToNat]
    omega
  have hread := hchar.bind
    (f := fun a => anyChar >>= fun c => pure (((a.toNat : Int) - 0xC0) * 0x100 + c.toNat))
    (reads_anyChar (UInt8.ofNat (n % 256))).bind_pure
  simp only [hhigh, hlow] at hread
  rwa [show (((0xc0 + n / 256 : ℕ) : Int) - 0xC0) * 0x100 + (n % 256 : ℕ) = n by omega] at hread

theorem decodes_int (x : Int32) :
    Decodes dukDebugInteger (dukDebugWriteInt x) (IntSupported x) x.toInt := by
  unfold dukDebugWriteInt
  split_ifs with hshort hlong
  · have hread : Reads shortInteger _ _ := reads_shortInteger (n := x.toInt.toNat) (by omega)
    rw [Int.toNat_of_nonneg hshort.1] at hread
    exact hread.choice_left.decodes ⟨hshort.1, by omega⟩
  · have hread : Reads longInteger _ _ := reads_longInteger (n := x.toInt.toNat) (by omega)
    rw [Int.toNat_of_nonneg hlong.1] at hread
    have hright : Reads dukDebugInteger _ x.toInt :=
      hread.choice_right exactFrom_shortInteger.first (by
        rw [Set.mem_ofPred_eq, UInt8.toNat_ofNat_of_lt' (by simp only [UInt8.size]; omega)]
        omega)
    exact hright.decodes hlong
  · have hrej : Rejects dukDebugInteger (0x10 :: bigEndian 4 (x.toInt % 2 ^ 32).toNat) :=
      exactFrom_dukDebugInteger.first.rejects (by simp [intFirst]) _
    exact hrej.decodes _ hlong

theorem toInt_toInt32 (x : UInt32) :
    x.toInt32.toInt = if x.toNat < 2 ^ 31 then (x.toNat : Int) else x.toNat - 2 ^ 32 := by
  have h := BitVec.toInt_eq_toNat_cond x.toBitVec
  rw [UInt32.toNat_toBitVec] at h
  rw [show x.toInt32.toInt = x.toBitVec.toInt from rfl, h]
  split_ifs <;> omega

theorem decodes_uint (x : UInt32) :
    Decodes dukDebugInteger (dukDebugWriteUint x) (x.toNat ≤ 16383) x.toNat := by
  have hlt : x.toNat < 2 ^ 32 := x.toNat_lt
  apply (decodes_int x.toInt32).congr
  · rw [IntSupported, toInt_toInt32]
    split_ifs <;> omega
  · intro h
    rw [toInt_toInt32, if_pos (by omega)]

theorem reads_lenStrType1 {data : Bytes} (h : data.length ≤ 0x1f) :
    Reads lenStrType1 (UInt8.ofNat (0x60 + data.length) :: data) data := by
  have hbyte : (UInt8.ofNat (0x60 + data.length)).toNat = 0x60 + data.length :=
    UInt8.toNat_ofNat_of_lt' (by simp only [UInt8.size]; omega)
  have hchar : Reads (charRange 0x60 0x7f) [UInt8.ofNat (0x60 + data.length)]
      (UInt8.ofNat (0x60 + data.length)) := by
    apply reads_charRange
    rw [hbyte]
    simp only [UInt8.reduceToNat]
    omega
  apply hchar.bind
  rw [hbyte, Nat.add_sub_cancel_left]
  exact reads_count_anyChar data

theorem reads_lenStrType2 {data : Bytes} (h : data.length ≤ 0xffff) :
    Reads lenStrType2 (0x12 :: (bigEndian 2 data.length ++ data)) data :=
  (reads_charLit 0x12).bind ((reads_bigWord (by omega)).bind (reads_count_anyChar data))

theorem decodes_string (data : Bytes) :
    Decodes dukDebugStr (dukDebugWriteString data) (StrSupported data) data := by
  unfold dukDebugWriteString dukDebugWriteStrbuf
  split_ifs with hshort hlong
  · have hread : Reads dukDebugStr _ data := (reads_lenStrType1 hshort.1).choice_left
    exact hread.decodes (Nat.le_trans hshort.1 (by decide))
  · have hread : Reads dukDebugStr (0x12 :: (bigEndian 2 data.length ++ data)) data :=
      (reads_lenStrType2 hlong).choice_left.choice_right exactFrom_lenStrType1.first (by simp)
    exact hread.decodes hlong
  · have hrej : Rejects dukDebugStr (0x11 :: (bigEndian 4 data.length ++ data)) :=
      exactFrom_dukDebugStr.first.rejects (by simp [strFirst]) _
    exact hrej.decodes data hlong

theorem reads_dukDebugDouble (bits : UInt64) :
    Reads dukDebugDouble (0x1a :: bigEndian 8 bits.toNat) bits := by
  have hcount := reads_count_anyChar (bigEndian 8 bits.toNat)
  rw [length_bigEndian] at hcount
  have hread := hcount.bind_pure (f := fun bytes => UInt64.ofNat (ofBigEndian bytes))
  rw [ofBigEndian_bigEndian bits.toNat_lt, UInt64.ofNat_toNat] at hread
  exact (reads_charLit 0x1a).bind hread

theorem charToInt_of_lt (sign : CharSign) {n : ℕ} (h : n < 128) :
    charToInt sign (UInt8.ofNat n) = n := by
  have hn : (UInt8.ofNat n).toNat = n := UInt8.toNat_ofNat_of_lt' (by simp only [UInt8.size]; omega)
  cases sign <;> simp [charToInt, hn, h]

theorem reads_dukDebugJsClass (sign : CharSign) (classNumber : Fin 128) (heapptr : Pointer) :
    Reads (dukDebugJsClass sign)
      ([0x1b, UInt8.ofNat classNumber, UInt8.ofNat heapptr.bytes.length] ++ heapptr.bytes)
      ⟨(classNumber : ℕ), heapptr.bytes⟩ := by
  have hlen : heapptr.bytes.length < 128 := by
    rcases heapptr.size with h | h <;> omega
  have hdata : Reads (count anyChar (charToInt sign (UInt8.ofNat heapptr.bytes.length)).toNat)
      heapptr.bytes heapptr.bytes := by
    rw [charToInt_of_lt sign hlen]
    exact reads_count_anyChar heapptr.bytes
  rw [← charToInt_of_lt sign classNumber.isLt]
  exact (reads_charLit 0x1b).bind ((reads_anyChar _).bind
    ((reads_anyChar _).bind (hdata.bind_pure (f := fun data => JsClass.mk _ data))))

theorem reads_replyValue_string (sign : CharSign) {c : UInt8} {u data : Bytes}
    (hc : c ∉ intFirst) (h : Reads dukDebugStr (c :: u) data) :
    Reads (replyValue sign) (c :: u) (.string data) :=
  (h.bind_pure (f := VarType.string)).choice_left.choice_right
    (exactFrom_dukDebugInteger.first.bind _) hc

theorem reads_replyValue_double (sign : CharSign) (bits : UInt64) :
    Reads (replyValue sign) (0x1a :: bigEndian 8 bits.toNat) (.double bits) :=
  (((reads_dukDebugDouble bits).bind_pure (f := VarType.double)).choice_left.choice_right
    (exactFrom_dukDebugStr.first.bind _) (by simp [strFirst])).choice_right
    (exactFrom_dukDebugInteger.first.bind _) (by simp [intFirst])

theorem reads_replyValue_jsClass (sign : CharSign) (classNumber : Fin 128)
    (heapptr : Pointer) :
    Reads (replyValue sign)
      ([0x1b, UInt8.ofNat classNumber, UInt8.ofNat heapptr.bytes.length] ++ heapptr.bytes)
      (.jsClass ⟨(classNumber : ℕ), heapptr.bytes⟩) :=
  ((((reads_dukDebugJsClass sign classNumber heapptr).bind_pure
    (f := VarType.jsClass)).choice_right
    (exactFrom_dukDebugDouble.first.bind _) (by simp)).choice_right
    (exactFrom_dukDebugStr.first.bind _) (by simp [strFirst])).choice_right
    (exactFrom_dukDebugInteger.first.bind _) (by simp [intFirst])

theorem rejects_replyValue (sign : CharSign) {c : UInt8} (u : Bytes)
    (hint : c ∉ intFirst) (hstr : c ∉ strFirst) (hdouble : c ≠ 0x1a) (hclass : c ≠ 0x1b) :
    Rejects (replyValue sign) (c :: u) :=
  (exactFrom_replyValue sign).first.rejects (by simp [hint, hstr, hdouble, hclass]) u

theorem dukDebugWriteString_first (data : Bytes) :
    ∃ c u, dukDebugWriteString data = c :: u ∧ 0x11 ≤ c.toNat ∧ c.toNat ≤ 0x7f := by
  unfold dukDebugWriteString dukDebugWriteStrbuf
  split_ifs with hshort hlong
  · refine ⟨_, _, rfl, ?_⟩
    rw [UInt8.toNat_ofNat_of_lt' (by simp only [UInt8.size]; omega)]
    omega
  · exact ⟨_, _, rfl, by decide⟩
  · exact ⟨_, _, rfl, by decide⟩

theorem dukDebugWriteString_of_not_supported {data : Bytes} (h : ¬ StrSupported data) :
    dukDebugWriteString data = 0x11 :: (bigEndian 4 data.length ++ data) := by
  have hlong : ¬ data.length ≤ 0xffff := h
  have hshort : ¬ data.length ≤ 0x1f := fun hle => hlong (Nat.le_trans hle (by decide))
  rw [dukDebugWriteString, dukDebugWriteStrbuf, if_neg (fun hle => hshort hle.1), if_neg hlong]

theorem decodes_replyValue_string (sign : CharSign) (data : Bytes) :
    Decodes (replyValue sign) (dukDebugWriteString data) (StrSupported data) (.string data) := by
  constructor
  · intro h
    have hread := (decodes_string data).reads h
    obtain ⟨c, u, hcons, _, hle⟩ := dukDebugWriteString_first data
    rw [hcons] at hread ⊢
    exact reads_replyValue_string sign (by simp [intFirst]; omega) hread
  · intro h
    rw [dukDebugWriteString_of_not_supported h]
    exact rejects_replyValue sign _ (by simp [intFirst]) (by simp [strFirst]) (by decide)
      (by decide)

theorem rejects_replyValue_buffer (sign : CharSign) (data : Bytes) :
    Rejects (replyValue sign) (dukDebugWriteBuffer data) := by
  unfold dukDebugWriteBuffer dukDebugWriteStrbuf
  split_ifs with hshort hlong
  · exact absurd hshort.2 (by decide)
  · exact rejects_replyValue sign _ (by simp [intFirst]) (by simp [strFirst]) (by decide)
      (by decide)
  · exact rejects_replyValue sign _ (by simp [intFirst]) (by simp [strFirst]) (by decide)
      (by decide)

/-- The value of a variable is decoded exactly if it is in the supported set. -/
theorem decodes_tval (sign : CharSign) (v : DukTval) :
    Decodes (replyValue sign) (dukDebugWriteTval v) v.Supported (varType v) := by
  have htag : ∀ {tag : UInt8} {data : Bytes}, tag ∉ intFirst → Reads dukDebugStr [tag] data →
      Decodes (replyValue sign) [tag] True (.string data) :=
    fun hint hread => (reads_replyValue_string sign hint hread).decodes trivial
  cases v with
  | undefined => exact htag (by simp [intFirst]) fun _ => rfl
  | unused => exact htag (by simp [intFirst]) fun _ => rfl
  | null => exact htag (by simp [intFirst]) fun _ => rfl
  | boolean value =>
      cases value with
      | true => exact htag (by simp [intFirst]) fun _ => rfl
      | false => exact htag (by simp [intFirst]) fun _ => rfl
  | pointer value =>
      exact (rejects_replyValue sign _ (by simp [intFirst]) (by simp [strFirst]) (by decide)
        (by decide)).decodes _ id
  | lightfunc flags func =>
      exact (rejects_replyValue sign _ (by simp [intFirst]) (by simp [strFirst]) (by decide)
        (by decide)).decodes _ id
  | string data => exact decodes_replyValue_string sign data
  | object classNumber heapptr =>
      exact (reads_replyValue_jsClass sign classNumber heapptr).decodes trivial
  | buffer data => exact (rejects_replyValue_buffer sign data).decodes _ id
  | number bits => exact (reads_replyValue_double sign bits).decodes trivial

theorem decodes_var (sign : CharSign) (var : Bytes × DukTval) :
    Decodes (replyNameValueGrammar sign) (writeVar var)
      (StrSupported var.1 ∧ var.2.Supported) (nameValue var) :=
  (decodes_string var.1).bind (decodes_tval sign var.2).bind_pure

theorem writeVar_first (var : Bytes × DukTval) :
    ∃ c u, writeVar var = c :: u ∧ c ∉ ({eom} : Set UInt8) := by
  obtain ⟨c, u, hcons, hle, _⟩ := dukDebugWriteString_first var.1
  refine ⟨c, u ++ dukDebugWriteTval var.2, ?_, ?_⟩
  · rw [writeVar, hcons, List.cons_append]
  · rintro rfl
    exact absurd hle (by decide)

theorem dukDebugWriteNotify_status : dukDebugWriteNotify 0x01 = [nfy] ++ [notificationStatusInt] :=
  rfl

theorem dukDebugWriteNotify_throw :
    dukDebugWriteNotify 0x05 = [nfy] ++ [notificationExceptionInt] :=
  rfl

theorem reads_undefined :
    Reads dukDebugStr dukDebugWriteUndefined
      (ascii ['u', 'n', 'd', 'e', 'f', 'i', 'n', 'e', 'd']) :=
  fun _ => rfl

theorem decodes_statusFields (paused : Int32) {u₁ u₂ u₃ u₄ : Bytes} {ok₁ ok₂ ok₃ ok₄ : Prop}
    {fileName funcName : Bytes} {lineNumber pc : Int} (hfile : Decodes dukDebugStr u₁ ok₁ fileName)
    (hfunc : Decodes dukDebugStr u₂ ok₂ funcName)
    (hline : Decodes dukDebugInteger u₃ ok₃ lineNumber) (hpc : Decodes dukDebugInteger u₄ ok₄ pc) :
    Decodes statusNotificationGrammar
      (dukDebugWriteNotify 0x01 ++ dukDebugWriteInt paused ++ (u₁ ++ u₂ ++ u₃ ++ u₄) ++ [eom])
      (IntSupported paused ∧ ok₁ ∧ ok₂ ∧ ok₃ ∧ ok₄)
      ⟨paused.toInt, fileName, funcName, lineNumber, pc⟩ := by
  rw [dukDebugWriteNotify_status]
  simp only [List.append_assoc]
  exact (reads_charLit nfy).bind_decodes ((reads_charLit _).bind_decodes
    ((decodes_int paused).bind (hfile.bind (hfunc.bind (hline.bind
      (hpc.bind_reads (reads_charLit_pure eom _)))))))

theorem decodes_status (paused : Int32) (activation : Option Activation) :
    Decodes statusNotificationGrammar (dukDebugSendStatus paused activation)
      (DukMessage.status paused activation).Supported
      (statusNotification paused activation) := by
  cases activation with
  | none =>
      have hzero : Reads dukDebugInteger (dukDebugWriteInt 0) 0 := (decodes_int 0).reads (by decide)
      refine (decodes_statusFields paused (reads_undefined.decodes trivial)
        (reads_undefined.decodes trivial) (hzero.decodes trivial)
        (hzero.decodes trivial)).congr ?_ fun _ => rfl
      simp [DukMessage.Supported]
  | some act =>
      refine (decodes_statusFields paused (decodes_string act.fileName)
        (decodes_string act.funcName) (decodes_uint act.line)
        (decodes_uint act.pc)).congr ?_ fun _ => rfl
      simp [DukMessage.Supported, Activation.Supported]

theorem decodes_throw (fatal : Int32) (msg fileName : Bytes) (line : UInt32) :
    Decodes exceptionNotificationGrammar (dukDebugSendThrow fatal msg fileName line)
      (DukMessage.throw fatal msg fileName line).Supported
      ⟨fatal.toInt, msg, fileName, line.toNat⟩ := by
  rw [dukDebugSendThrow, dukDebugWriteNotify_throw]
  simp only [List.append_assoc]
  exact (reads_charLit nfy).bind_decodes ((reads_charLit _).bind_decodes
    ((decodes_int fatal).bind ((decodes_string msg).bind ((decodes_string fileName).bind
      ((decodes_uint line).bind_reads (reads_charLit_pure eom _))))))

theorem reads_replyGrammar : Reads replyGrammar [rep, eom] ⟨[]⟩ :=
  (reads_charLit rep).bind (reads_charLit_pure eom _)

theorem decodes_replyInt (idx : Int32) :
    Decodes replyIntGrammar (dukDebugWriteReply (.index idx)) (IntSupported idx) ⟨idx.toInt⟩ :=
  (reads_charLit rep).bind_decodes ((decodes_int idx).bind_reads (reads_charLit_pure eom _))

theorem decodes_replyNameValueArray (sign : CharSign) (vars : List (Bytes × DukTval)) :
    Decodes (replyNameValueArrayGrammar sign) (dukDebugWriteReply (.locals vars))
      (DukReply.locals vars).Supported ⟨vars.map nameValue⟩ := by
  refine (reads_charLit rep).bind_decodes (decodes_many_bind (T := {eom})
    (exactFrom_replyNameValueGrammar sign) (fun _ => ?_) (decodes_var sign) writeVar_first
    eom_not_mem_strFirst (reads_charLit_pure eom _))
  exact (exactFrom_charLit eom).first.bind _

theorem decodes_eatWith {α : Type} {grammar : Parser UInt8 α} {u : Bytes} {ok : Prop} {a : α}
    (h : Decodes grammar u ok a) (callback : α → List Callback) :
    Decodes (eatWith grammar callback) u ok (callback a) :=
  h.bind_pure

/-- The recognizer of a request eats the replies to it that are supported, and only
those. -/
theorem decodes_eat_reply (sign : CharSign) {value : DukReply} {k : ReplyRecognizer}
    {calls : List Callback} (h : replyCalls value k = some calls) :
    Decodes (k.eat sign) (dukDebugWriteReply value) value.Supported calls := by
  cases value with
  | empty =>
      cases k with
      | reply =>
          cases h
          exact decodes_eatWith (reads_replyGrammar.decodes trivial) _
      | replyRemoveBreakpoint =>
          cases h
          exact decodes_eatWith (reads_replyGrammar.decodes trivial) _
      | replyAddBreakpoint => cases h
      | replyNameValueArray => cases h
  | index idx =>
      cases k with
      | replyAddBreakpoint =>
          cases h
          exact decodes_eatWith (decodes_replyInt idx) _
      | reply => cases h
      | replyRemoveBreakpoint => cases h
      | replyNameValueArray => cases h
  | locals vars =>
      cases k with
      | replyNameValueArray =>
          cases h
          exact decodes_eatWith (decodes_replyNameValueArray sign vars) _
      | reply => cases h
      | replyRemoveBreakpoint => cases h
      | replyAddBreakpoint => cases h

theorem dukDebugWriteReply_cons (value : DukReply) : ∃ u, dukDebugWriteReply value = rep :: u := by
  cases value <;> exact ⟨_, rfl⟩

theorem reply_eat_eq_none {sign : CharSign} {c : UInt8} (hc : c ≠ rep) (k : ReplyRecognizer)
    (u : Bytes) : k.eat sign (c :: u) = none :=
  (k.exactFrom_eat sign).first.cons_eq_none hc u

namespace GrammarReceiver

/-- A supported message is received by one round of the loop, whatever follows it. -/
theorem round_of_supported (sign : CharSign) {m : DukMessage} {queue queue' : List ReplyRecognizer}
    {calls : List Callback} (hrec : receive m queue = some (calls, queue')) (hm : m.Supported)
    (total t : Bytes) :
    round sign ⟨total, m.bytes ++ t, queue⟩ = some (calls, ⟨total, t, queue'⟩) := by
  cases m with
  | status paused activation =>
      cases hrec
      exact round_of_default (d := .statusNotification)
        ((decodes_eatWith (decodes_status paused activation) _).reads hm t)
  | throw fatal msg fileName line =>
      cases hrec
      exact round_of_default (d := .exceptionNotification)
        ((decodes_eatWith (decodes_throw fatal msg fileName line) _).reads hm t)
  | reply value =>
      cases queue with
      | nil => cases hrec
      | cons k queue =>
          obtain ⟨_, hcalls, heq⟩ := Option.map_eq_some_iff.mp hrec
          cases heq
          exact round_of_reply rfl ((decodes_eat_reply sign hcalls).reads hm t)
  | error code msg => exact hm.elim

/-- Nothing eats from a buffer that begins with an unsupported message. -/
theorem round_of_not_supported (sign : CharSign) {m : DukMessage}
    {queue queue' : List ReplyRecognizer} {calls : List Callback}
    (hrec : receive m queue = some (calls, queue')) (hm : ¬ m.Supported) (total t : Bytes) :
    round sign ⟨total, m.bytes ++ t, queue⟩ = none := by
  cases m with
  | status paused activation =>
      apply round_eq_none_of
      · intro d
        cases d with
        | versionIdentification => exact eat_version_eq_none _
        | statusNotification =>
            exact (decodes_eatWith (decodes_status paused activation) _).rejects hm t
        | exceptionNotification => exact eat_notification_eq_none (by decide) _ _ _
      · exact fun k _ _ => reply_eat_eq_none (by decide) k _
  | throw fatal msg fileName line =>
      apply round_eq_none_of
      · intro d
        cases d with
        | versionIdentification => exact eat_version_eq_none _
        | statusNotification => exact eat_notification_eq_none (by decide) _ _ _
        | exceptionNotification =>
            exact (decodes_eatWith (decodes_throw fatal msg fileName line) _).rejects hm t
      · exact fun k _ _ => reply_eat_eq_none (by decide) k _
  | reply value =>
      obtain ⟨u, hu⟩ := dukDebugWriteReply_cons value
      apply round_eq_none_of
      · intro d
        simp only [DukMessage.bytes, hu]
        exact d.exactFrom_eat.first.cons_eq_none d.rep_not_mem_first _
      · rintro k rest rfl
        obtain ⟨_, hcalls, _⟩ := Option.map_eq_some_iff.mp hrec
        exact (decodes_eat_reply sign hcalls).rejects hm t
  | error code msg =>
      apply round_eq_none_of
      · intro d
        apply d.exactFrom_eat.first.cons_eq_none
        cases d <;> simp [DefaultRecognizer.first, markerError, nfy]
      · exact fun k _ _ => reply_eat_eq_none (by decide) k _

/-- Nothing eats from a buffer that holds only a part of a message. -/
theorem round_of_partial (sign : CharSign) {m : DukMessage} {queue queue' : List ReplyRecognizer}
    {calls : List Callback} (hrec : receive m queue = some (calls, queue')) (total u : Bytes)
    {v : Bytes} (hu : u ++ v = m.bytes) (hv : v ≠ []) :
    round sign ⟨total, u, queue⟩ = none := by
  cases hround : round sign ⟨total, u, queue⟩ with
  | none => rfl
  | some x =>
      have hwhole := round_insert v _ _ _ hround
      simp only [insert, hu] at hwhole
      by_cases hm : m.Supported
      · have hnil := round_of_supported sign hrec hm (total ++ v) []
        rw [List.append_nil, hwhole] at hnil
        have hsaved := congrArg savedData (Prod.mk.inj (Option.some.inj hnil)).2
        exact absurd (List.append_eq_nil_iff.mp hsaved).2 hv
      · have hnone := round_of_not_supported sign hrec hm (total ++ v) []
        rw [List.append_nil, hwhole] at hnone
        cases hnone

theorem round_nil (sign : CharSign) (total : Bytes) (queue : List ReplyRecognizer) :
    round sign ⟨total, [], queue⟩ = none :=
  round_eq_none_of (fun d => d.exactFrom_eat.first.nil_eq_none)
    fun k _ _ => (k.exactFrom_eat sign).first.nil_eq_none

/-- The loop receives the supported messages at the front of the buffer and goes on
with what follows them. -/
theorem exhausts_streamBytes {sign : CharSign} {messages : List DukMessage}
    (hsupp : ∀ m ∈ messages, m.Supported) {queue queue' : List ReplyRecognizer}
    {calls calls' : List Callback} (hrec : receiveAll messages queue = some (calls, queue'))
    {total rest : Bytes} {r' : GrammarReceiver}
    (hrest : Exhausts (round sign) ⟨total, rest, queue'⟩ calls' r') :
    Exhausts (round sign) ⟨total, streamBytes messages ++ rest, queue⟩ (calls ++ calls') r' := by
  induction messages generalizing queue calls with
  | nil =>
      cases hrec
      exact hrest
  | cons m messages ih =>
      obtain ⟨first, others, hfirst, hothers, heq⟩ := receiveAll_cons_eq_some_iff.mp hrec
      cases heq
      have htail := ih (fun x hx => hsupp x (List.mem_cons_of_mem m hx)) hothers
      have hround := round_of_supported sign hfirst (hsupp m List.mem_cons_self) total
        (streamBytes messages ++ rest)
      rw [← List.append_assoc] at hround
      rw [List.append_assoc]
      exact Exhausts.more hround htail

/-- A stream of supported messages in which the replies answer the queued requests in
order is decoded exactly: `put` makes the receiver calls of the messages in their
order, leaves nothing in `savedData` and has removed the answered recognizers. -/
theorem put_streamBytes (sign : CharSign) (r : GrammarReceiver) (messages : List DukMessage)
    (calls : List Callback) (queue : List ReplyRecognizer) (hempty : r.savedData = [])
    (hsupp : ∀ m ∈ messages, m.Supported)
    (hrec : receiveAll messages r.recognizerQueue = some (calls, queue)) :
    put sign r (streamBytes messages) =
      (calls, ⟨r.totalSavedData ++ streamBytes messages, [], queue⟩) := by
  apply put_eq_of_exhausts
  have hstop := Exhausts.stop
    (round_nil sign (r.totalSavedData ++ streamBytes messages) queue)
  have hall := exhausts_streamBytes hsupp hrec hstop
  rw [List.append_nil, List.append_nil] at hall
  rw [insert, hempty, List.nil_append]
  exact hall

/-- An AddBreakpoint and a GetLocals request are answered, with a Throw notification
in between. -/
theorem put_streamBytes_locals :
    put .signed ⟨[], [], [.replyAddBreakpoint, .replyNameValueArray, .reply]⟩
        (streamBytes [.reply (.index 300), .throw 1 [0x6f, 0x6b] [0x61] 7,
          .reply (.locals [([0x78], .object 3 ⟨[0, 0, 2, 4], Or.inl rfl⟩), ([0x79], .null)])]) =
      ([.replyAddBreakpointReceiver ⟨300⟩, .exceptionNotificationReceiver ⟨1, [0x6f, 0x6b], [0x61], 7⟩,
        .replyNameValueArrayReceiver ⟨[⟨[0x78], .jsClass ⟨3, [0, 0, 2, 4]⟩⟩,
          ⟨[0x79], .string [0x6e, 0x75, 0x6c, 0x6c]⟩]⟩],
        ⟨[] ++ streamBytes [.reply (.index 300), .throw 1 [0x6f, 0x6b] [0x61] 7,
          .reply (.locals [([0x78], .object 3 ⟨[0, 0, 2, 4], Or.inl rfl⟩), ([0x79], .null)])],
          [], [.reply]⟩) :=
  put_streamBytes _ _ _ _ _ rfl (by decide) (by decide)

end GrammarReceiver

end Debugger

end UnifyFramework
