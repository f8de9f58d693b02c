import UnifyFramework.Debugger.Client
import UnifyFramework.Transition.Run

/-!
# The bytes on their way to Duktape

Threads of type `τ` append frames to `outputBuffer`, and Duktape takes bytes from its
front through the read callback. `duk_debug_read_bytes` calls it until it has the
number of bytes it wants, beginning with the byte that `duk_debug_peek_byte` may have
read ahead. Nothing is lost, repeated or reordered on the way: what has been read and
what is still in the buffer are the frames one after the other, and every call of
`duk_debug_read_bytes` obtains the bytes that come next.
-/

namespace UnifyFramework

namespace Debugger

open Transition

namespace DukDebugger

/-- The read callback returns something, and no more than it was asked for. -/
theorem length_innerSendData {d : DukDebugger} {length : ℕ} (hlength : 0 < length)
    (hbuffer : d.outputBuffer ≠ []) :
    1 ≤ (d.innerSendData length).1.length ∧ (d.innerSendData length).1.length ≤ length := by
  have hpos := List.length_pos_of_ne_nil hbuffer
  rw [innerSendData_eq, List.length_take]
  omega

end DukDebugger

/-- A call of `duk_debug_read_bytes` that is under way, with the number of bytes read
before it. `duk_debug_peek_byte` reads one byte and keeps it. -/
structure Reading where
  start : ℕ
  length : ℕ
  got : Bytes
  peek : Bool
  deriving DecidableEq

/-- A call of `duk_debug_read_bytes` that has returned. -/
structure Obtained where
  start : ℕ
  length : ℕ
  data : Bytes
  deriving DecidableEq

structure Pipe where
  debugger : DukDebugger
  /-- `dbg_have_next_byte` and `dbg_next_byte`. -/
  nextByte : Option UInt8
  reading : Option Reading
  connBroken : Bool
  /-- The frames given to `RefillDataToSend`. -/
  appended : List Bytes
  /-- The lengths asked for and the bytes returned by the read callback. -/
  reads : List (ℕ × Bytes)
  obtained : List Obtained

inductive PipeEvent (τ : Type)
  | refill (t : τ) (newData : Bytes)
  | peek
  | readBytes (length : ℕ)
  | peekByte
  | read (length : ℕ)
  | finish

namespace Pipe

variable {τ : Type}

def init : Pipe := ⟨DukDebugger.init, none, none, false, [], [], []⟩

def received (s : Pipe) : Bytes := (s.reads.map Prod.snd).flatten

/-- `duk_debug_read_bytes` up to its loop: the byte that was read ahead comes first. -/
def dukDebugReadBytes (s : Pipe) (length : ℕ) (peek : Bool) : Pipe :=
  let start := s.received.length - s.nextByte.toList.length
  if 1 ≤ length then
    { s with nextByte := none, reading := some ⟨start, length, s.nextByte.toList, peek⟩ }
  else { s with reading := some ⟨start, length, [], peek⟩ }

/-- `duk_trans_dvalue_read`, and what the loop does with the result. -/
def dukTransDvalueRead (s : Pipe) (length : ℕ) : Pipe :=
  let sent := s.debugger.innerSendData length
  let s' := { s with debugger := sent.2, reads := s.reads ++ [(length, sent.1)] }
  match s.reading with
  | none => s'
  | some ρ =>
      if sent.1.length = 0 ∨ length < sent.1.length then
        { s' with
          connBroken := true
          reading := some { ρ with got := List.replicate ρ.length 0 } }
      else { s' with reading := some { ρ with got := ρ.got ++ sent.1 } }

/-- The end of the loop, and of `duk_debug_peek_byte` if the call came from there. -/
def finish (s : Pipe) (ρ : Reading) : Pipe :=
  if ρ.peek then { s with nextByte := ρ.got.head?, reading := none }
  else { s with reading := none, obtained := s.obtained ++ [⟨ρ.start, ρ.length, ρ.got⟩] }

/-- The read callback waits, without the mutex, as long as the buffer is empty. It may be
called by the loop, with the number of bytes that are left, or directly while no byte has
been read ahead. The peek callback only returns the size of the buffer. -/
def step (s : Pipe) : PipeEvent τ → Option Pipe
  | .refill _ newData =>
      some { s with
        debugger := s.debugger.refillDataToSend newData
        appended := s.appended ++ [newData] }
  | .peek => some s
  | .readBytes length =>
      if s.reading = none then some (s.dukDebugReadBytes length false) else none
  | .peekByte => if s.reading = none then some (s.dukDebugReadBytes 1 true) else none
  | .read length =>
      if 0 < length ∧ s.debugger.outputBuffer ≠ [] ∧ s.nextByte = none ∧
          ∀ ρ ∈ s.reading, length = ρ.length - ρ.got.length then
        some (s.dukTransDvalueRead length)
      else none
  | .finish =>
      match s.reading with
      | none => none
      | some ρ => if ρ.got.length = ρ.length then some (s.finish ρ) else none

/-- The bytes that Duktape has read but that no finished call has obtained. -/
def ahead (s : Pipe) : Bytes := s.nextByte.toList ++ s.reading.elim [] Reading.got

/-- The frames are in the bytes read and in the buffer, and a call that is under way has the
bytes from its start on. -/
structure Flowing (s : Pipe) : Prop where
  stream : s.received ++ s.debugger.outputBuffer = s.appended.flatten
  sizes : ∀ x ∈ s.reads, 1 ≤ x.2.length ∧ x.2.length ≤ x.1
  suffix : s.ahead <:+ s.received
  reading : ∀ ρ ∈ s.reading, ρ.start + s.ahead.length = s.received.length ∧
    ρ.got.length ≤ ρ.length ∧ (ρ.length ≠ 0 → s.nextByte = none) ∧ (ρ.peek → ρ.length = 1)
  obtained : ∀ x ∈ s.obtained, x.data.length = x.length ∧
    x.data <+: s.received.drop x.start
  unbroken : s.connBroken = false

theorem flowing_init : init.Flowing :=
  ⟨rfl, by simp [init], List.nil_suffix, by simp [init], by simp [init], rfl⟩

namespace Flowing

variable {s : Pipe}

theorem refill (h : s.Flowing) (newData : Bytes) :
    Flowing { s with
      debugger := s.debugger.refillDataToSend newData
      appended := s.appended ++ [newData] } := by
  refine ⟨?_, h.sizes, h.suffix, h.reading, h.obtained, h.unbroken⟩
  rw [DukDebugger.refillDataToSend_eq, List.flatten_append, List.flatten_singleton, ← h.stream,
    List.append_assoc]
  rfl

theorem dukDebugReadBytes (h : s.Flowing) (hnone : s.reading = none) (length : ℕ) {peek : Bool}
    (hpeek : peek = true → length = 1) : (s.dukDebugReadBytes length peek).Flowing := by
  have hahead : s.ahead = s.nextByte.toList := by
    rw [ahead, hnone]
    exact List.append_nil _
  have hle : s.nextByte.toList.length ≤ s.received.length := by
    rw [← hahead]
    exact h.suffix.length_le
  rw [Pipe.dukDebugReadBytes]
  split_ifs with hlength
  · refine ⟨h.stream, h.sizes, hahead ▸ h.suffix, ?_, h.obtained, h.unbroken⟩
    rintro ρ ⟨⟩
    refine ⟨Nat.sub_add_cancel hle, ?_, fun _ => rfl, hpeek⟩
    cases s.nextByte with
    | none => exact Nat.zero_le _
    | some b => exact hlength
  · have hsame : ahead { s with reading := some ⟨s.received.length - s.nextByte.toList.length, length,
        [], peek⟩ } = s.ahead := by
      rw [hahead]
      exact List.append_nil _
    refine ⟨h.stream, h.sizes, ?_, ?_, h.obtained, h.unbroken⟩
    · rw [hsame]
      exact h.suffix
    · rintro ρ ⟨⟩
      refine ⟨?_, Nat.zero_le _, fun hne => absurd (Nat.one_le_iff_ne_zero.mpr hne) hlength, hpeek⟩
      rw [hsame, hahead]
      exact Nat.sub_add_cancel hle

/-- A call that has returned keeps its bytes when more bytes are received. -/
theorem obtained_append (h : s.Flowing) (more : Bytes) :
    ∀ x ∈ s.obtained, x.data.length = x.length ∧ x.data <+: (s.received ++ more).drop x.start := by
  intro x hx
  obtain ⟨hlength, hdata⟩ := h.obtained x hx
  refine ⟨hlength, hdata.trans ?_⟩
  rw [List.drop_append]
  exact List.prefix_append _ _

theorem dukTransDvalueRead (h : s.Flowing) {length : ℕ} (hlength : 0 < length)
    (hbuffer : s.debugger.outputBuffer ≠ []) (hnext : s.nextByte = none)
    (hleft : ∀ ρ ∈ s.reading, length = ρ.length - ρ.got.length) :
    (s.dukTransDvalueRead length).Flowing := by
  obtain ⟨hpos, hle⟩ := DukDebugger.length_innerSendData hlength hbuffer
  have hreceived : ∀ t : Pipe, t.reads = s.reads ++ [(length, (s.debugger.innerSendData length).1)] →
      t.received = s.received ++ (s.debugger.innerSendData length).1 := by
    intro t ht
    rw [received, ht, List.map_append, List.flatten_append]
    simp [received]
  have hstream : s.received ++ (s.debugger.innerSendData length).1 ++
      (s.debugger.innerSendData length).2.outputBuffer = s.appended.flatten := by
    rw [List.append_assoc, DukDebugger.innerSendData_append]
    exact h.stream
  have hsizes : ∀ x ∈ s.reads ++ [(length, (s.debugger.innerSendData length).1)],
      1 ≤ x.2.length ∧ x.2.length ≤ x.1 :=
    List.forall_mem_append.mpr ⟨h.sizes, by simpa using ⟨hpos, hle⟩⟩
  cases hreading : s.reading with
  | none =>
      simp only [Pipe.dukTransDvalueRead, hreading]
      refine ⟨by rw [hreceived _ rfl]; exact hstream, hsizes, ?_, by simp, ?_, h.unbroken⟩
      · simp only [ahead, hnext]
        exact List.nil_suffix
      · rw [hreceived _ rfl]
        exact h.obtained_append _
  | some ρ =>
      obtain ⟨hstart, hgot, hzero, hpeek⟩ := h.reading ρ hreading
      have hahead : s.ahead = ρ.got := by
        rw [ahead, hnext, hreading]
        rfl
      have hleftρ := hleft ρ hreading
      have hsuffix := h.suffix
      rw [hahead] at hstart hsuffix
      simp only [Pipe.dukTransDvalueRead, hreading]
      rw [if_neg (by omega)]
      have hahead' : ahead { s with
          debugger := (s.debugger.innerSendData length).2
          reads := s.reads ++ [(length, (s.debugger.innerSendData length).1)]
          reading := some { ρ with got := ρ.got ++ (s.debugger.innerSendData length).1 } } =
          ρ.got ++ (s.debugger.innerSendData length).1 := by
        rw [ahead, hnext]
        rfl
      refine ⟨by rw [hreceived _ rfl]; exact hstream, hsizes, ?_, ?_, ?_, h.unbroken⟩
      · obtain ⟨before, hbefore⟩ := hsuffix
        rw [hreceived _ rfl, hahead', ← hbefore, List.append_assoc]
        exact List.suffix_append _ _
      · rintro ρ' ⟨⟩
        rw [hreceived _ rfl, hahead', List.length_append, List.length_append]
        refine ⟨?_, ?_, hzero, hpeek⟩
        · change ρ.start + (ρ.got.length + _) = _
          omega
        · change ρ.got.length + _ ≤ ρ.length
          omega
      · rw [hreceived _ rfl]
        exact h.obtained_append _

theorem finish (h : s.Flowing) {ρ : Reading} (hreading : s.reading = some ρ)
    (hgot : ρ.got.length = ρ.length) : (s.finish ρ).Flowing := by
  obtain ⟨hstart, _, hzero, hpeek⟩ := h.reading ρ hreading
  have hahead : s.ahead = s.nextByte.toList ++ ρ.got := by
    rw [ahead, hreading]
    rfl
  rw [Pipe.finish]
  split_ifs with hp
  · have hone : ρ.got.length = 1 := by rw [hgot, hpeek hp]
    obtain ⟨b, hb⟩ := List.length_eq_one_iff.mp hone
    have hnone : s.nextByte = none := hzero (by rw [hpeek hp]; exact Nat.one_ne_zero)
    refine ⟨h.stream, h.sizes, ?_, by simp, h.obtained, h.unbroken⟩
    have hsuffix := h.suffix
    rw [hahead, hnone, hb] at hsuffix
    simp only [ahead, hb]
    exact hsuffix
  · refine ⟨h.stream, h.sizes, ?_, by simp, ?_, h.unbroken⟩
    · have hsuffix := h.suffix
      rw [hahead] at hsuffix
      by_cases hlength : ρ.length = 0
      · have hnil : ρ.got = [] := List.length_eq_zero_iff.mp (hgot.trans hlength)
        rw [hnil] at hsuffix
        exact hsuffix
      · simp only [ahead, hzero hlength]
        exact List.nil_suffix
    · refine List.forall_mem_append.mpr ⟨h.obtained, ?_⟩
      simp only [List.mem_singleton, forall_eq]
      refine ⟨hgot, ?_⟩
      by_cases hlength : ρ.length = 0
      · have hnil : ρ.got = [] := List.length_eq_zero_iff.mp (hgot.trans hlength)
        rw [hnil]
        exact List.nil_prefix
      · have hsuffix := h.suffix
        rw [hahead, hzero hlength] at hsuffix hstart
        obtain ⟨before, hbefore⟩ := hsuffix
        have hlen := congrArg List.length hbefore
        simp only [Option.toList_none, List.nil_append, List.length_append] at hbefore hstart hlen
        rw [show ρ.start = before.length by omega]
        have hdrop : s.received.drop before.length = ρ.got := by
          rw [← hbefore, List.drop_left]
        exact ⟨[], (List.append_nil _).trans hdrop.symm⟩

end Flowing

theorem flowing_step (s : Pipe) (e : PipeEvent τ) (s' : Pipe) (h : s.Flowing)
    (hstep : step s e = some s') : s'.Flowing := by
  cases e with
  | refill t newData =>
      cases hstep
      exact h.refill newData
  | peek =>
      cases hstep
      exact h
  | readBytes length =>
      rw [step] at hstep
      split_ifs at hstep with hnone
      cases hstep
      exact h.dukDebugReadBytes hnone length (by simp)
  | peekByte =>
      rw [step] at hstep
      split_ifs at hstep with hnone
      cases hstep
      exact h.dukDebugReadBytes hnone 1 fun _ => rfl
  | read length =>
      rw [step] at hstep
      split_ifs at hstep with hread
      cases hstep
      exact h.dukTransDvalueRead hread.1 hread.2.1 hread.2.2.1 hread.2.2.2
  | finish =>
      rw [step] at hstep
      cases hreading : s.reading with
      | none =>
          rw [hreading] at hstep
          cases hstep
      | some ρ =>
          simp only [hreading] at hstep
          split_ifs at hstep with hgot
          cases hstep
          exact h.finish hreading hgot

/-- The byte pipe is a lossless FIFO of whole frames: the bytes read and the buffer are the
frames in the order in which they were appended, every read returns at least one byte and at
most as many as asked for, so that the connection never breaks, and every call of
`duk_debug_read_bytes` obtains the bytes that come next in the sequence of the frames, as
soon as there are enough of them. -/
structure Lossless (τ : Type) (s : Pipe) : Prop where
  stream : s.received ++ s.debugger.outputBuffer = s.appended.flatten
  sizes : ∀ x ∈ s.reads, 1 ≤ x.2.length ∧ x.2.length ≤ x.1
  unbroken : s.connBroken = false
  next : ∀ x ∈ s.obtained, x.data.length = x.length ∧
    x.data = (s.appended.flatten.drop x.start).take x.length
  completes : ∀ ρ ∈ s.reading, ρ.peek = false → ρ.start + ρ.length ≤ s.appended.flatten.length →
    ∃ (es : List (PipeEvent τ)) (s' : Pipe), run step s es = some s' ∧
      s'.obtained = s.obtained ++
        [⟨ρ.start, ρ.length, (s.appended.flatten.drop ρ.start).take ρ.length⟩]

theorem Flowing.next {s : Pipe} (h : s.Flowing) : ∀ x ∈ s.obtained, x.data.length = x.length ∧
    x.data = (s.appended.flatten.drop x.start).take x.length := by
  intro x hx
  obtain ⟨hlength, hdata⟩ := h.obtained x hx
  refine ⟨hlength, ?_⟩
  have hinitial : x.data <+: s.appended.flatten.drop x.start := by
    rw [← h.stream, List.drop_append]
    exact hdata.trans (List.prefix_append _ _)
  rw [← hlength]
  exact List.prefix_iff_eq_take.mp hinitial

theorem Flowing.run_finish {s : Pipe} (h : s.Flowing) {ρ : Reading} (hreading : s.reading = some ρ)
    (hpeek : ρ.peek = false) (hgot : ρ.got.length = ρ.length) :
    run step s [(.finish : PipeEvent τ)] = some (s.finish ρ) ∧
      (s.finish ρ).obtained = s.obtained ++
        [⟨ρ.start, ρ.length, (s.appended.flatten.drop ρ.start).take ρ.length⟩] := by
  have hobtained : (s.finish ρ).obtained = s.obtained ++ [⟨ρ.start, ρ.length, ρ.got⟩] := by
    rw [Pipe.finish, hpeek]
    rfl
  have happended : (s.finish ρ).appended = s.appended := by
    rw [Pipe.finish, hpeek]
    rfl
  have hdata := ((h.finish hreading hgot).next ⟨ρ.start, ρ.length, ρ.got⟩ (by simp [hobtained])).2
  rw [happended] at hdata
  constructor
  · simp only [run, step, hreading, if_pos hgot, Option.bind_some]
  · rw [hobtained]
    exact congrArg (fun data => s.obtained ++ [⟨ρ.start, ρ.length, data⟩]) hdata

/-- A call that wants bytes which are there has them after at most one more call of the read
callback. -/
theorem Flowing.completes {s : Pipe} (h : s.Flowing) {ρ : Reading} (hreading : s.reading = some ρ)
    (hpeek : ρ.peek = false) (hle : ρ.start + ρ.length ≤ s.appended.flatten.length) :
    ∃ (es : List (PipeEvent τ)) (s' : Pipe), run step s es = some s' ∧
      s'.obtained = s.obtained ++
        [⟨ρ.start, ρ.length, (s.appended.flatten.drop ρ.start).take ρ.length⟩] := by
  obtain ⟨hstart, hgot, hzero, _⟩ := h.reading ρ hreading
  by_cases hfull : ρ.got.length = ρ.length
  · exact ⟨_, _, h.run_finish hreading hpeek hfull⟩
  · have hnext : s.nextByte = none := hzero (by omega)
    have hahead : s.ahead = ρ.got := by
      rw [ahead, hnext, hreading]
      rfl
    have hbuffer : ρ.length - ρ.got.length ≤ s.debugger.outputBuffer.length := by
      have hlen := congrArg List.length h.stream
      rw [List.length_append] at hlen
      rw [hahead] at hstart
      omega
    have hne : s.debugger.outputBuffer ≠ [] := by
      apply List.ne_nil_of_length_pos
      omega
    have hleft : ∀ ρ' ∈ s.reading, ρ.length - ρ.got.length = ρ'.length - ρ'.got.length := by
      rintro ρ' hρ'
      rw [Option.some.inj (hreading.symm.trans hρ')]
    have hpos : 0 < ρ.length - ρ.got.length := by omega
    have hstep : step s (.read (ρ.length - ρ.got.length) : PipeEvent τ) =
        some (s.dukTransDvalueRead (ρ.length - ρ.got.length)) := by
      rw [step, if_pos ⟨hpos, hne, hnext, hleft⟩]
    obtain ⟨hsent, hsent'⟩ := DukDebugger.length_innerSendData hpos hne
    have hreading' : (s.dukTransDvalueRead (ρ.length - ρ.got.length)).reading = some
        { ρ with got := ρ.got ++ (s.debugger.innerSendData (ρ.length - ρ.got.length)).1 } := by
      rw [Pipe.dukTransDvalueRead, hreading]
      simp only
      rw [if_neg (by omega)]
    have hgot' : (ρ.got ++ (s.debugger.innerSendData (ρ.length - ρ.got.length)).1).length =
        ρ.length := by
      rw [List.length_append, DukDebugger.innerSendData_eq, List.length_take]
      omega
    have hsame : (s.dukTransDvalueRead (ρ.length - ρ.got.length)).appended = s.appended ∧
        (s.dukTransDvalueRead (ρ.length - ρ.got.length)).obtained = s.obtained := by
      rw [Pipe.dukTransDvalueRead, hreading]
      simp only
      rw [if_neg (by omega)]
      exact ⟨rfl, rfl⟩
    obtain ⟨hrun, hobtained⟩ := (h.dukTransDvalueRead hpos hne hnext hleft).run_finish (τ := τ)
      hreading' hpeek hgot'
    rw [hsame.1, hsame.2] at hobtained
    exact ⟨[.read (ρ.length - ρ.got.length), .finish], _,
      run_cons_eq_some_iff.mpr ⟨_, hstep, hrun⟩, hobtained⟩

/-- In every state of every run the pipe is lossless. -/
theorem lossless_of_run (es : List (PipeEvent τ)) (s : Pipe) (hrun : run step init es = some s) :
    s.Lossless τ := by
  have h : s.Flowing := run_invariant flowing_step flowing_init hrun
  exact ⟨h.stream, h.sizes, h.unbroken, h.next,
    fun ρ hreading hpeek hle => h.completes hreading hpeek hle⟩

/-- Two threads append a frame each, and Duktape reads across the border between them, with
a byte read ahead. -/
def twoFrames : List (PipeEvent Bool) :=
  [.refill false [1, 2, 3], .peekByte, .read 1, .finish, .readBytes 4, .read 3,
    .refill true [4, 5], .peek, .read 1, .finish]

theorem lossless_twoFrames :
    ∃ s, run step init twoFrames = some s ∧ s.Lossless Bool ∧ s.obtained = [⟨0, 4, [1, 2, 3, 4]⟩] ∧
      s.debugger.outputBuffer = [5] :=
  ⟨_, rfl, lossless_of_run twoFrames _ rfl, by decide, by decide⟩

end Pipe

end Debugger

end UnifyFramework
