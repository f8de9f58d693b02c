import UnifyFramework.Debugger.Receiver

/-!
# Requests of the debugger

The `Create*Request` functions of `GrammarReceiver`. Each of them pushes the
recognizer of the reply on `recognizerQueue` and returns the bytes of the request,
which the caller appends to the output buffer later.
-/

namespace UnifyFramework

namespace Debugger

abbrev Place := Bytes × Int

/-- What a `Create*Request` function pushes on `recognizerQueue`, and the request it
returns. Which place an AddBreakpoint request is about is remembered beside them. -/
structure Request where
  recognizer : ReplyRecognizer
  frame : Bytes
  place : Option Place
  place_isSome : place.isSome = true ↔ recognizer = .replyAddBreakpoint
  deriving DecidableEq

/-- The requests without arguments. -/
def createCommandRequest (recognizer : ReplyRecognizer) (command : UInt8)
    (h : recognizer ≠ .replyAddBreakpoint) : Request :=
  ⟨recognizer, [req, intShift + command, eom], none, by simp [h]⟩

def createPauseRequest : Request := createCommandRequest .reply 0x12 (by decide)

def createResumeRequest : Request := createCommandRequest .reply 0x13 (by decide)

def createStepIntoRequest : Request := createCommandRequest .reply 0x14 (by decide)

def createStepOverRequest : Request := createCommandRequest .reply 0x15 (by decide)

def createStepOutRequest : Request := createCommandRequest .reply 0x16 (by decide)

def createGetLocalsRequest : Request :=
  createCommandRequest .replyNameValueArray 0x1d (by decide)

/-- The length of a file name. The two bytes of a length above 31 come in the order
low, high. -/
def pushFileNameSize (size : ℕ) : Bytes :=
  if size ≤ 31 then [0x60 + UInt8.ofNat size]
  else [0x12, UInt8.ofNat (size % 256), UInt8.ofNat (size / 256)]

/-- A line or an identifier. A negative number takes the first branch and a number
above 16383 none of them. -/
def pushInt (value : Int) : Bytes :=
  if value ≤ 63 then [0x80 + UInt8.ofNat (value % 256).toNat]
  else if value ≤ 16383 then
    [0xc0 + UInt8.ofNat (value / 256).toNat, UInt8.ofNat (value % 256).toNat]
  else []

def createAddBreakpointRequest (fileName : Bytes) (line : Int) : Request :=
  ⟨.replyAddBreakpoint,
    [req, intShift + 0x18] ++ pushFileNameSize fileName.length ++ fileName ++ pushInt line ++ [eom],
    some (fileName, line), by simp⟩

def createRemoveBreakpointRequest (id : Int) : Request :=
  ⟨.replyRemoveBreakpoint, [req, intShift + 0x19] ++ pushInt id ++ [eom], none, by simp⟩

end Debugger

end UnifyFramework
