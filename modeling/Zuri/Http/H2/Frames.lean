import Mathlib.Data.List.Basic
import Mathlib.Data.Nat.Bitwise

/-!
The frame layer: nine octets of header, a payload, and the padding that is taken off
a frame before anything else sees it.
-/

namespace Zuri.Http.H2

namespace Frames

abbrev DATA : Nat := 0
abbrev HEADERS : Nat := 1
abbrev PRIORITY : Nat := 2
abbrev RST_STREAM : Nat := 3
abbrev SETTINGS : Nat := 4
abbrev PUSH_PROMISE : Nat := 5
abbrev PING : Nat := 6
abbrev GOAWAY : Nat := 7
abbrev WINDOW_UPDATE : Nat := 8
abbrev CONTINUATION : Nat := 9

abbrev FLAG_END_STREAM : Nat := 1
abbrev FLAG_ACK : Nat := 1
abbrev FLAG_END_HEADERS : Nat := 4
abbrev FLAG_PADDED : Nat := 8
abbrev FLAG_PRIORITY : Nat := 32

abbrev SETTINGS_HEADER_TABLE_SIZE : Nat := 1
abbrev SETTINGS_MAX_CONCURRENT_STREAMS : Nat := 3
abbrev SETTINGS_INITIAL_WINDOW_SIZE : Nat := 4
abbrev SETTINGS_MAX_FRAME_SIZE : Nat := 5

abbrev NO_ERROR : Nat := 0
abbrev PROTOCOL_ERROR : Nat := 1
abbrev INTERNAL_ERROR : Nat := 2
abbrev FLOW_CONTROL_ERROR : Nat := 3
abbrev STREAM_CLOSED : Nat := 5
abbrev FRAME_SIZE_ERROR : Nat := 6
abbrev REFUSED_STREAM : Nat := 7
abbrev COMPRESSION_ERROR : Nat := 9
abbrev ENHANCE_YOUR_CALM : Nat := 11

end Frames

open Frames

/-- A frame, its payload as it stands on the wire or with the padding taken off. -/
structure Frame where
  type : Nat
  flags : Nat
  streamId : Nat
  payload : List UInt8
  deriving DecidableEq

def Frame.hasFlag (frame : Frame) (flag : Nat) : Bool := frame.flags &&& flag != 0

/-- The integer of four octets at an offset. -/
def readU32 (data : List UInt8) (offset : Nat) : Nat :=
  ((data.getD offset 0).toNat <<< 24) ||| ((data.getD (offset + 1) 0).toNat <<< 16) |||
    ((data.getD (offset + 2) 0).toNat <<< 8) ||| (data.getD (offset + 3) 0).toNat

def writeU32 (value : Nat) : List UInt8 :=
  [UInt8.ofNat (value >>> 24), UInt8.ofNat (value >>> 16), UInt8.ofNat (value >>> 8),
    UInt8.ofNat value]

/-- Whether the payload of a frame on the wire carries padding. -/
def Frame.padded (frame : Frame) : Bool :=
  frame.hasFlag FLAG_PADDED && (frame.type == DATA || frame.type == HEADERS)

/-- The frame as the endpoint sees it: refused if it is too large, its padding off. -/
def readFrame (maxFrameSize : Nat) (wire : Frame) : Except String Frame :=
  let length := wire.payload.length
  if maxFrameSize < length then
    .error s!"frame of {length} bytes exceeds the {maxFrameSize} byte limit"
  else if wire.padded then
    match wire.payload with
    | [] => .error "padded frame is too short to carry a pad length"
    | pad :: rest =>
        if length ≤ pad.toNat then .error "frame padding is longer than the frame"
        else .ok { wire with payload := rest.take (length - pad.toNat - 1) }
  else .ok wire

def encodeSettings (values : List (Nat × Nat)) : List UInt8 :=
  values.flatMap fun entry =>
    [UInt8.ofNat (entry.1 >>> 8), UInt8.ofNat entry.1] ++ writeU32 entry.2

/-- Puts a setting in its place: the place of its first occurrence, the last value. -/
def putSetting : List (Nat × Nat) → Nat → Nat → List (Nat × Nat)
  | [], identifier, value => [(identifier, value)]
  | entry :: rest, identifier, value =>
      if entry.1 = identifier then (identifier, value) :: rest
      else entry :: putSetting rest identifier value

def decodeEntries : List UInt8 → List (Nat × Nat) → List (Nat × Nat)
  | a :: b :: c :: d :: e :: f :: rest, values =>
      decodeEntries rest
        (putSetting values ((a.toNat <<< 8) ||| b.toNat) (readU32 [c, d, e, f] 0))
  | _, values => values

def decodeSettings (payload : List UInt8) : Except String (List (Nat × Nat)) :=
  if payload.length % 6 ≠ 0 then .error "SETTINGS payload is not a multiple of six octets"
  else .ok (decodeEntries payload [])

def encodeGoaway (lastStreamId errorCode : Nat) (message : List UInt8) : List UInt8 :=
  writeU32 lastStreamId ++ writeU32 errorCode ++ message

def encodeError (errorCode : Nat) : List UInt8 := writeU32 errorCode

theorem or_octets (high low n : Nat) (h : low < 2 ^ n) :
    high <<< n ||| low = high * 2 ^ n + low := by
  rw [← Nat.shiftLeft_add_eq_or_of_lt h, Nat.shiftLeft_eq]

theorem readU32_writeU32 (value : Nat) (h : value < 2 ^ 32) : readU32 (writeU32 value) 0 = value := by
  simp only [readU32, writeU32, List.getD_cons_zero, List.getD_cons_succ, UInt8.toNat_ofNat',
    Nat.zero_add, Nat.shiftRight_eq_div_pow]
  rw [Nat.or_assoc, Nat.or_assoc, or_octets _ _ 8 (by omega), or_octets _ _ 16 (by omega),
    or_octets _ _ 24 (by omega)]
  omega

end Zuri.Http.H2
