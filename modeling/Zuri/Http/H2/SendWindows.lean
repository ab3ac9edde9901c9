import Zuri.Http.H2.Handlers
import Zuri.Http.H2.Session
import Zuri.Transition.Log

/-!
The windows a peer grants, read off the log: what the protocol makes of its settings,
its window updates and its resets, less the octets sent. Every piece of a body has to
be covered by the window of its stream and by that of the connection.
-/

namespace Zuri.Http.H2

open Frames Http2Connection

/-- The value a payload of SETTINGS gives a setting last. -/
def settingOf (identifier : Nat) : List UInt8 → Option Nat
  | a :: b :: c :: d :: e :: f :: rest =>
      (settingOf identifier rest).or
        (if (a.toNat <<< 8) ||| b.toNat = identifier then some (readU32 [c, d, e, f] 0) else none)
  | _ => none

def maxWindow : Int := 2147483647

/-- What the peer has granted less what was sent, for the connection and for every stream
that is not reset. Nothing more is kept once the endpoint gives the connection up; after
a GOAWAY of the peer it goes on. Besides, the octets of each body and the streams whose
requests have ended. -/
structure SendLedger where
  dead : Bool := false
  leaving : Bool := false
  initial : Int := 65535
  conn : Int := 65535
  window : Nat → Option Int := fun _ => none
  body : Nat → Nat := fun _ => 0
  ended : Nat → Bool := fun _ => false

namespace SendLedger

def moveWindow (ledger : SendLedger) (id : Nat) (amount : Int) : SendLedger :=
  { ledger with
    window := Function.update ledger.window id ((ledger.window id).map fun w => w + amount) }

def closeWindow (ledger : SendLedger) (id : Nat) : SendLedger :=
  { ledger with window := Function.update ledger.window id none }

def addBody (ledger : SendLedger) (id length : Nat) : SendLedger :=
  { ledger with body := Function.update ledger.body id (ledger.body id + length) }

/-- A new initial window, which moves the window of every stream. -/
def shift (ledger : SendLedger) (initial : Int) : SendLedger :=
  { ledger with
    initial := initial
    window := fun id => (ledger.window id).map fun w => w + (initial - ledger.initial) }

/-- Whether a frame is the end of what its stream brings. -/
def endsStream (frame : Frame) : Bool :=
  frame.hasFlag FLAG_END_STREAM && (frame.type == DATA ||
    ((frame.type == HEADERS || frame.type == CONTINUATION) && frame.hasFlag FLAG_END_HEADERS))

def markEnded (ledger : SendLedger) (frame : Frame) : SendLedger :=
  if endsStream frame then
    { ledger with ended := Function.update ledger.ended frame.streamId true }
  else ledger

/-- The increment of a window update, if it is one. -/
def incrementOf (frame : Frame) : Nat :=
  if frame.payload.length = 4 then readU32 frame.payload 0 &&& 2147483647 else 0

def take (ledger : SendLedger) (frame : Frame) : SendLedger :=
  if frame.type = SETTINGS then
    if frame.hasFlag FLAG_ACK then ledger
    else
      match settingOf SETTINGS_INITIAL_WINDOW_SIZE frame.payload with
      | some value => if (value : Int) ≤ maxWindow then ledger.shift value else ledger
      | none => ledger
  else if frame.type = WINDOW_UPDATE then
    if frame.streamId = 0 then { ledger with conn := ledger.conn + incrementOf frame }
    else ledger.moveWindow frame.streamId (incrementOf frame)
  else if frame.type = RST_STREAM then ledger.closeWindow frame.streamId
  else if frame.type = GOAWAY then { ledger with leaving := true }
  else if frame.type = DATA then
    (ledger.addBody frame.streamId frame.payload.length).markEnded frame
  else ledger.markEnded frame

def send (ledger : SendLedger) (frame : Frame) : SendLedger :=
  if frame.type = DATA then
    { ledger.moveWindow frame.streamId (-frame.payload.length) with
      conn := ledger.conn - frame.payload.length }
  else if frame.type = RST_STREAM then ledger.closeWindow frame.streamId
  else if frame.type = GOAWAY then { ledger with dead := true }
  else ledger

def openWindow (ledger : SendLedger) (id : Nat) : SendLedger :=
  { ledger with
    window := Function.update ledger.window id (some ledger.initial)
    body := Function.update ledger.body id 0 }

def hear (ledger : SendLedger) : Event → SendLedger
  | .opened id => ledger.openWindow id
  | .read _ _ wire =>
      match readFrame maxFrameSize wire with
      | .ok frame => ledger.take frame
      | .error _ => ledger
  | .wrote frame => ledger.send frame
  | .malformed _ | .decoded _ | .undecoded _ | .handed _ _ _ _ => ledger

/-- The windows are within what the protocol allows. -/
structure Bounded (ledger : SendLedger) : Prop where
  initial : ledger.initial ≤ maxWindow
  conn : ledger.conn ≤ maxWindow
  window : ∀ id w, ledger.window id = some w → w ≤ maxWindow

end SendLedger

/-- A piece of a body that goes out is covered by both windows. -/
def Covered (ledger : SendLedger) : Event → Prop
  | .wrote frame =>
      ledger.dead = false → frame.type = DATA → frame.payload ≠ [] →
        (frame.payload.length : Int) ≤ ledger.conn ∧
          ∃ w, ledger.window frame.streamId = some w ∧ (frame.payload.length : Int) ≤ w
  | _ => True

/-- A frame that closes a stream whatever it brings. -/
def closes (maxBodySize : Nat) (ledger : SendLedger) (frame : Frame) : Bool :=
  frame.type == RST_STREAM ||
    (frame.type == WINDOW_UPDATE && SendLedger.incrementOf frame == 0) ||
    (frame.type == PRIORITY && frame.payload.length != 5) ||
    (frame.type == DATA &&
      decide (maxBodySize < ledger.body frame.streamId + frame.payload.length))

/-- A frame that moves a window, or takes one away. -/
def movesWindow (frame : Frame) : Bool :=
  frame.type == SETTINGS || frame.type == WINDOW_UPDATE || frame.type == RST_STREAM

/-- No window passes the largest the protocol allows; a stream that is being answered is
not closed, and one that has ended brings nothing more; and no window is moved once the
peer has said that it goes away. -/
structure Granting (isServer : Bool) (maxBodySize : Nat) (ledger : SendLedger)
    (busy : List Nat) (frame : Frame) : Prop where
  bounded : (ledger.take frame).Bounded
  kept : frame.streamId ∈ busy → closes maxBodySize ledger frame = false
  once : isServer = true → ledger.ended frame.streamId = true →
    frame.type ≠ HEADERS ∧ frame.type ≠ CONTINUATION ∧ frame.type ≠ DATA
  staying : ledger.leaving = true → movesWindow frame = false

def GrantingEvent (isServer : Bool) (maxBodySize : Nat) (ledger : SendLedger) : Event → Prop
  | .read _ busy wire =>
      ledger.dead = false → ∀ frame, readFrame maxFrameSize wire = .ok frame →
        Granting isServer maxBodySize ledger busy frame
  | _ => True

/-- The windows the connection keeps are the ones the peer has granted. -/
structure WindowsKept (ledger : SendLedger) (c : Http2Connection) : Prop where
  initial : c.peerInitialWindow = ledger.initial
  conn : c.sendWindow = ledger.conn
  streams : ∀ entry ∈ c.streams, ledger.window entry.1 = some (c.objects entry.2).sendWindow
  bounded : ledger.Bounded

end Zuri.Http.H2
