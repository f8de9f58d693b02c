import UnifyFramework.Debugger.Message

/-!
# What Duktape writes to the debug connection

The `duk_debug_write_*` functions of `duk_debugger.c`, as the bytes they hand to
the write callback, and the messages that are built from them: the Status and
Throw notifications, the replies to the requests of the debugger and the error
reply. `Supported` singles out the messages whose fields the grammars of the
receiver can express.
-/

namespace UnifyFramework

namespace Duktape

open Parsing Debugger

/-- A pointer as it is written to the connection: its bytes in network order, 4 or 8
of them. -/
structure Pointer where
  bytes : Bytes
  size : bytes.length = 4 ∨ bytes.length = 8
  deriving DecidableEq

/-- The values `duk_debug_write_tval` distinguishes. A number is its IEEE 754 bit
pattern. -/
inductive DukTval
  | undefined
  | unused
  | null
  | boolean (value : Bool)
  | pointer (value : Pointer)
  | lightfunc (flags : UInt16) (func : Pointer)
  | string (data : Bytes)
  | object (classNumber : Fin 128) (heapptr : Pointer)
  | buffer (data : Bytes)
  | number (bits : UInt64)
  deriving DecidableEq

def dukDebugWriteInt (x : Int32) : Bytes :=
  if 0 ≤ x.toInt ∧ x.toInt ≤ 0x3f then [UInt8.ofNat (0x80 + x.toInt.toNat)]
  else if 0 ≤ x.toInt ∧ x.toInt ≤ 0x3fff then
    [UInt8.ofNat (0xc0 + x.toInt.toNat / 256), UInt8.ofNat (x.toInt.toNat % 256)]
  else 0x10 :: bigEndian 4 (x.toInt % 2 ^ 32).toNat

def dukDebugWriteUint (x : UInt32) : Bytes := dukDebugWriteInt x.toInt32

def dukDebugWriteStrbuf (data : Bytes) (markerBase : UInt8) : Bytes :=
  if data.length ≤ 0x1f ∧ markerBase = 0x11 then UInt8.ofNat (0x60 + data.length) :: data
  else if data.length ≤ 0xffff then
    (markerBase + 1) :: (bigEndian 2 data.length ++ data)
  else markerBase :: (bigEndian 4 data.length ++ data)

/-- `duk_debug_write_string`, and `duk_debug_write_hstring` of a string. -/
def dukDebugWriteString (data : Bytes) : Bytes := dukDebugWriteStrbuf data 0x11

def dukDebugWriteBuffer (data : Bytes) : Bytes := dukDebugWriteStrbuf data 0x13

def dukDebugWriteUndefined : Bytes := [0x16]

def dukDebugWriteTval : DukTval → Bytes
  | .undefined => [0x16]
  | .unused => [0x15]
  | .null => [0x17]
  | .boolean value => [if value then 0x18 else 0x19]
  | .pointer value => [0x1c, UInt8.ofNat value.bytes.length] ++ value.bytes
  | .lightfunc flags func =>
      [0x1d, UInt8.ofNat (flags.toNat / 256), UInt8.ofNat (flags.toNat % 256),
        UInt8.ofNat func.bytes.length] ++ func.bytes
  | .string data => dukDebugWriteString data
  | .object classNumber heapptr =>
      [0x1b, UInt8.ofNat classNumber, UInt8.ofNat heapptr.bytes.length] ++ heapptr.bytes
  | .buffer data => dukDebugWriteBuffer data
  | .number bits => 0x1a :: bigEndian 8 bits.toNat

/-- What `duk_debug_send_status` reads off the topmost activation. -/
structure Activation where
  fileName : Bytes
  funcName : Bytes
  line : UInt32
  pc : UInt32
  deriving DecidableEq

/-- The replies to the requests of the debugger: an empty reply, the index of a new
breakpoint, and the local variables with their values. -/
inductive DukReply
  | empty
  | index (idx : Int32)
  | locals (vars : List (Bytes × DukTval))
  deriving DecidableEq

inductive DukMessage
  | status (paused : Int32) (activation : Option Activation)
  | throw (fatal : Int32) (msg fileName : Bytes) (line : UInt32)
  | reply (value : DukReply)
  | error (code : Int32) (msg : Bytes)
  deriving DecidableEq

def markerError : UInt8 := 0x03

def dukDebugWriteNotify (command : Int32) : Bytes := nfy :: dukDebugWriteInt command

def writeVar (var : Bytes × DukTval) : Bytes :=
  dukDebugWriteString var.1 ++ dukDebugWriteTval var.2

def writeActivation : Option Activation → Bytes
  | none =>
      dukDebugWriteUndefined ++ dukDebugWriteUndefined ++ dukDebugWriteInt 0 ++
        dukDebugWriteInt 0
  | some act =>
      dukDebugWriteString act.fileName ++ dukDebugWriteString act.funcName ++
        dukDebugWriteUint act.line ++ dukDebugWriteUint act.pc

def dukDebugSendStatus (paused : Int32) (activation : Option Activation) : Bytes :=
  dukDebugWriteNotify 0x01 ++ dukDebugWriteInt paused ++ writeActivation activation ++ [eom]

def dukDebugSendThrow (fatal : Int32) (msg fileName : Bytes) (line : UInt32) : Bytes :=
  dukDebugWriteNotify 0x05 ++ dukDebugWriteInt fatal ++ dukDebugWriteString msg ++
    dukDebugWriteString fileName ++ dukDebugWriteUint line ++ [eom]

/-- `duk_debug_write_reply`, the values of the handler, and `duk_debug_write_eom`. -/
def dukDebugWriteReply : DukReply → Bytes
  | .empty => [rep, eom]
  | .index idx => rep :: (dukDebugWriteInt idx ++ [eom])
  | .locals vars => rep :: ((vars.map writeVar).flatten ++ [eom])

def dukDebugWriteErrorEom (code : Int32) (msg : Bytes) : Bytes :=
  markerError :: (dukDebugWriteInt code ++ dukDebugWriteString msg ++ [eom])

def DukMessage.bytes : DukMessage → Bytes
  | .status paused activation => dukDebugSendStatus paused activation
  | .throw fatal msg fileName line => dukDebugSendThrow fatal msg fileName line
  | .reply value => dukDebugWriteReply value
  | .error code msg => dukDebugWriteErrorEom code msg

def streamBytes (messages : List DukMessage) : Bytes := (messages.map DukMessage.bytes).flatten

def IntSupported (x : Int32) : Prop := 0 ≤ x.toInt ∧ x.toInt ≤ 16383

def StrSupported (data : Bytes) : Prop := data.length ≤ 65535

def DukTval.Supported : DukTval → Prop
  | .pointer _ => False
  | .lightfunc _ _ => False
  | .buffer _ => False
  | .string data => StrSupported data
  | _ => True

def Activation.Supported (act : Activation) : Prop :=
  StrSupported act.fileName ∧ StrSupported act.funcName ∧
    act.line.toNat ≤ 16383 ∧ act.pc.toNat ≤ 16383

def DukReply.Supported : DukReply → Prop
  | .empty => True
  | .index idx => IntSupported idx
  | .locals vars => ∀ var ∈ vars, StrSupported var.1 ∧ var.2.Supported

def DukMessage.Supported : DukMessage → Prop
  | .status paused activation => IntSupported paused ∧ ∀ act ∈ activation, act.Supported
  | .throw fatal msg fileName line =>
      IntSupported fatal ∧ StrSupported msg ∧ StrSupported fileName ∧ line.toNat ≤ 16383
  | .reply value => value.Supported
  | .error _ _ => False

instance (x : Int32) : Decidable (IntSupported x) := inferInstanceAs (Decidable (_ ∧ _))

instance (data : Bytes) : Decidable (StrSupported data) := inferInstanceAs (Decidable (_ ≤ _))

instance DukTval.decidableSupported : (v : DukTval) → Decidable v.Supported
  | .pointer _ | .lightfunc _ _ | .buffer _ => inferInstanceAs (Decidable False)
  | .string data => inferInstanceAs (Decidable (StrSupported data))
  | .undefined | .unused | .null | .boolean _ | .object _ _ | .number _ =>
      inferInstanceAs (Decidable True)

instance (act : Activation) : Decidable act.Supported := inferInstanceAs (Decidable (_ ∧ _))

instance DukReply.decidableSupported : (value : DukReply) → Decidable value.Supported
  | .empty => inferInstanceAs (Decidable True)
  | .index idx => inferInstanceAs (Decidable (IntSupported idx))
  | .locals vars =>
      inferInstanceAs (Decidable (∀ var ∈ vars, StrSupported var.1 ∧ var.2.Supported))

instance DukMessage.decidableSupported : (m : DukMessage) → Decidable m.Supported
  | .status paused activation =>
      inferInstanceAs (Decidable (IntSupported paused ∧ ∀ act ∈ activation, act.Supported))
  | .throw fatal msg fileName line =>
      inferInstanceAs (Decidable (IntSupported fatal ∧ StrSupported msg ∧
        StrSupported fileName ∧ line.toNat ≤ 16383))
  | .reply value => inferInstanceAs (Decidable value.Supported)
  | .error _ _ => inferInstanceAs (Decidable False)

end Duktape

end UnifyFramework
