import Mathlib

/-!
A WebSocket over a connection. A frame is read and its length, its masking and its kind are
checked; a message is assembled from fragments while control frames between them are answered.
What the peer sends and how the connection ends are given at the start.
-/

namespace Zuri.Http.WebSocket

abbrev Bytes := List UInt8

/-- What `crypto.random_bytes(4)` gives. -/
abbrev Key := Fin 4 → UInt8

def Key.bytes (key : Key) : Bytes := List.ofFn key

inductive Raised where
  | protocol (message : String)
  | connection (message : String)
  | timeout (message : String)
  deriving DecidableEq

/-- How reading ends once there are no more bytes. -/
inductive Ending where
  | eof
  | raises (error : Raised)
  deriving DecidableEq

structure Frame where
  opcode : UInt8
  final : Bool
  data : Bytes
  deriving DecidableEq

structure Message where
  opcode : UInt8
  data : Bytes
  deriving DecidableEq

/-- A socket, with the bytes that are still to be read, those that were written and the keys it
is going to draw. Numbers up to the size limit are exact. -/
structure Socket where
  isClient : Bool
  maxMessageSize : Nat
  exact : maxMessageSize ≤ 2 ^ 53
  isOpen : Bool
  closeSent : Bool
  closed : Bool
  input : Bytes
  ending : Ending
  output : Bytes
  random : Nat → Key
  drawn : Nat

def text : UInt8 := 1
def binary : UInt8 := 2
def close : UInt8 := 8
def ping : UInt8 := 9
def pong : UInt8 := 10
def tooLarge : Nat := 1009

def unmask (payload key : Bytes) : Bytes := payload.mapIdx fun i b => b ^^^ key.getD (i % 4) 0

namespace Socket

/-- What reading raises when the connection ends before so many bytes. -/
def short (s : Socket) (length : Nat) : Raised :=
  match s.ending with
  | .eof => .protocol s!"connection closed after {s.input.length} of {length} expected bytes"
  | .raises error => error

def readExactly (length : Nat) (s : Socket) : Except Raised (Bytes × Socket) :=
  if length ≤ s.input.length then
    .ok (s.input.take length, { s with input := s.input.drop length })
  else .error (s.short length)

/-- The length of a frame, from the seven bits of its header and the bytes that extend them. -/
def readLength (short : Nat) (s : Socket) : Except Raised (Nat × Socket) :=
  if short = 126 then do
    let (extended, s) ← s.readExactly 2
    return ((extended.getD 0 0).toNat * 256 + (extended.getD 1 0).toNat, s)
  else if short = 127 then do
    let (extended, s) ← s.readExactly 8
    if extended.getD 0 0 &&& 128 ≠ 0 then
      .error (.protocol "a frame length with its high bit set")
    else return (extended.foldl (fun length b => length * 256 + b.toNat) 0, s)
  else .ok (short, s)

def readFrame (s : Socket) : Except Raised (Frame × Socket) := do
  let (header, s) ← s.readExactly 2
  let first := header.getD 0 0
  let second := header.getD 1 0
  let opcode := first &&& 15
  let masked := decide (second &&& 128 ≠ 0)
  let length := (second &&& 127).toNat
  if first &&& 112 ≠ 0 then
    .error (.protocol "a reserved frame bit is set without a negotiated extension")
  else if 8 ≤ opcode.toNat ∧ 125 < length then
    .error (.protocol "a control frame may not carry more than 125 bytes")
  else do
    let (length, s) ← s.readLength length
    if s.maxMessageSize < length then
      .error (.protocol s!"frame of {length} bytes exceeds the message limit")
    else if s.isClient = masked then
      .error (.protocol
        (if masked then "a server may not mask a frame" else "a client must mask every frame"))
    else if masked then do
      let (key, s) ← s.readExactly 4
      let (payload, s) ← s.readExactly length
      return (⟨opcode, decide (first &&& 128 ≠ 0), unmask payload key⟩, s)
    else do
      let (payload, s) ← s.readExactly length
      return (⟨opcode, decide (first &&& 128 ≠ 0), payload⟩, s)

end Socket

/-- The octets of a number, the last ones first. -/
def octets : Nat → Nat → Bytes → Bytes
  | 0, _, octets => octets
  | n + 1, remaining, bytes => octets n (remaining / 256) (UInt8.ofNat (remaining % 256) :: bytes)

def lengthBytes (maskBit : UInt8) (length : Nat) : Bytes :=
  if length < 126 then [maskBit ||| UInt8.ofNat length]
  else if length < 65536 then
    [maskBit ||| 126, UInt8.ofNat (length / 256 % 256), UInt8.ofNat (length % 256)]
  else (maskBit ||| 127) :: octets 8 length []

namespace Socket

def write (opcode : UInt8) (payload : Bytes) (s : Socket) : Except Raised Socket :=
  if !s.isOpen && opcode ≠ close then .error (.connection "the WebSocket is closed")
  else if 8 ≤ opcode.toNat ∧ 125 < payload.length then
    .error (.protocol "a control frame may not carry more than 125 bytes")
  else
    let header := (128 ||| opcode) :: lengthBytes (if s.isClient then 128 else 0) payload.length
    if s.isClient then
      let key := (s.random s.drawn).bytes
      .ok { s with
        output := s.output ++ (header ++ key ++ unmask payload key)
        drawn := s.drawn + 1 }
    else .ok { s with output := s.output ++ (header ++ payload) }

/-- Writing where what is raised is caught. -/
def tryWrite (opcode : UInt8) (payload : Bytes) (s : Socket) : Socket :=
  match s.write opcode payload with
  | .error _ => s
  | .ok s => s

/-- Closing, with a code and a reason. -/
def closeWith (code : Nat) (reason : Bytes) (s : Socket) : Socket :=
  if !s.isOpen then s
  else
    let s :=
      if s.closeSent then s
      else
        { s with closeSent := true }.tryWrite close
          (UInt8.ofNat (code / 256 % 256) :: UInt8.ofNat (code % 256) :: reason.take 123)
    { s with isOpen := false, closed := true }

/-- What a frame leads to: the end of `receive`, or the next frame. -/
inductive Turn where
  | ends (result : Except Raised (Option Message)) (s : Socket)
  | goes (opcode : Option UInt8) (payload : Bytes) (s : Socket)

/-- A fragment of the message that is assembled. -/
def extend (frame : Frame) (opcode : UInt8) (payload : Bytes) (s : Socket) : Turn :=
  let payload := payload ++ frame.data
  if s.maxMessageSize < payload.length then
    .ends (.error (.protocol s!"message exceeds {s.maxMessageSize} bytes"))
      (s.closeWith tooLarge "message too large".toUTF8.toList)
  else if frame.final then .ends (.ok (some ⟨opcode, payload⟩)) s
  else .goes (some opcode) payload s

def handle (frame : Frame) (opcode : Option UInt8) (payload : Bytes) (s : Socket) : Turn :=
  if 8 ≤ frame.opcode.toNat then
    if !frame.final then .ends (.error (.protocol "a control frame may not be fragmented")) s
    else if frame.opcode = ping then
      match s.write pong frame.data with
      | .error error => .ends (.error error) s
      | .ok s => .goes opcode payload s
    else if frame.opcode = pong then .goes opcode payload s
    else if frame.opcode = close then
      let s := if s.closeSent then s else { s with closeSent := true }.tryWrite close frame.data
      .ends (.ok (some ⟨close, frame.data⟩)) { s with isOpen := false, closed := true }
    else .ends (.error (.protocol s!"unknown control frame opcode {frame.opcode.toNat}")) s
  else
    match opcode with
    | none =>
        if frame.opcode = 0 then
          .ends (.error (.protocol "a continuation frame with nothing to continue")) s
        else s.extend frame frame.opcode payload
    | some opcode =>
        if frame.opcode ≠ 0 then
          .ends (.error (.protocol "a new message began before the previous one finished")) s
        else s.extend frame opcode payload

/-- What an error while a frame is read makes of `receive`. -/
def failed (error : Raised) : Except Raised (Option Message) :=
  match error with
  | .connection _ => .ok none
  | error => .error error

theorem readExactly_input {length : Nat} {s s' : Socket} {bytes : Bytes}
    (h : s.readExactly length = .ok (bytes, s')) :
    s'.input.length + length = s.input.length ∧ bytes = s.input.take length := by
  unfold readExactly at h
  split at h
  · next hle =>
      obtain ⟨rfl, rfl⟩ := Prod.mk.inj (Except.ok.inj h)
      refine ⟨?_, rfl⟩
      simp only [List.length_drop]
      omega
  · exact absurd h (by simp)

theorem bind_eq_ok {ε α β : Type} {a : Except ε α} {f : α → Except ε β} {b : β}
    (h : a >>= f = .ok b) : ∃ x, a = .ok x ∧ f x = .ok b := by
  cases a with
  | error e => exact absurd h (by simp [bind, Except.bind])
  | ok x => exact ⟨x, rfl, h⟩

theorem readLength_input {short length : Nat} {s s' : Socket}
    (h : s.readLength short = .ok (length, s')) : s'.input.length ≤ s.input.length := by
  unfold readLength at h
  split at h
  · obtain ⟨⟨bytes, s₁⟩, hread, hrest⟩ := bind_eq_ok h
    have hinput := (readExactly_input hread).1
    obtain ⟨-, rfl⟩ := Prod.mk.inj (Except.ok.inj hrest)
    omega
  · split at h
    · obtain ⟨⟨bytes, s₁⟩, hread, hrest⟩ := bind_eq_ok h
      have hinput := (readExactly_input hread).1
      simp only at hrest
      split at hrest
      · exact absurd hrest (by simp)
      · obtain ⟨-, rfl⟩ := Prod.mk.inj (Except.ok.inj hrest)
        omega
    · obtain ⟨-, rfl⟩ := Prod.mk.inj (Except.ok.inj h)
      exact Nat.le_refl _

theorem readFrame_input {s s' : Socket} {frame : Frame} (h : s.readFrame = .ok (frame, s')) :
    s'.input.length < s.input.length := by
  obtain ⟨⟨header, s₁⟩, hheader, h⟩ := bind_eq_ok h
  have h₁ := (readExactly_input hheader).1
  simp only at h
  split at h
  · exact absurd h (by simp)
  · split at h
    · exact absurd h (by simp)
    · obtain ⟨⟨length, s₂⟩, hlength, h⟩ := bind_eq_ok h
      have h₂ := readLength_input hlength
      simp only at h
      split at h
      · exact absurd h (by simp)
      · split at h
        · exact absurd h (by simp)
        · split at h
          · obtain ⟨⟨key, s₃⟩, hkey, h⟩ := bind_eq_ok h
            simp only at h
            obtain ⟨⟨payload, s₄⟩, hpayload, h⟩ := bind_eq_ok h
            have h₃ := (readExactly_input hkey).1
            have h₄ := (readExactly_input hpayload).1
            have hlast : s₄ = s' := (Prod.mk.inj (Except.ok.inj h)).2
            rw [← hlast]
            omega
          · obtain ⟨⟨payload, s₃⟩, hpayload, h⟩ := bind_eq_ok h
            have h₃ := (readExactly_input hpayload).1
            have hlast : s₃ = s' := (Prod.mk.inj (Except.ok.inj h)).2
            rw [← hlast]
            omega

theorem write_input {opcode : UInt8} {payload : Bytes} {s s' : Socket}
    (h : s.write opcode payload = .ok s') : s'.input = s.input := by
  unfold write at h
  split at h
  · exact absurd h (by simp)
  · split at h
    · exact absurd h (by simp)
    · simp only at h
      split at h <;>
      · rw [← Except.ok.inj h]

theorem handle_input {frame : Frame} {opcode opcode' : Option UInt8} {payload payload' : Bytes}
    {s s' : Socket} (h : s.handle frame opcode payload = .goes opcode' payload' s') :
    s'.input = s.input := by
  have hextend : ∀ op, s.extend frame op payload = .goes opcode' payload' s' →
      s'.input = s.input := by
    intro op hextend
    unfold extend at hextend
    simp only at hextend
    split at hextend
    · exact absurd hextend (by simp)
    · split at hextend
      · exact absurd hextend (by simp)
      · obtain ⟨-, -, rfl⟩ := Turn.goes.inj hextend
        rfl
  unfold handle at h
  split at h
  · split at h
    · exact absurd h (by simp)
    · split at h
      · split at h
        · exact absurd h (by simp)
        · next hwrite =>
            obtain ⟨-, -, rfl⟩ := Turn.goes.inj h
            exact write_input hwrite
      · split at h
        · obtain ⟨-, -, rfl⟩ := Turn.goes.inj h
          rfl
        · split at h
          · exact absurd h (by simp)
          · exact absurd h (by simp)
  · split at h
    · split at h
      · exact absurd h (by simp)
      · exact hextend _ h
    · split at h
      · exact absurd h (by simp)
      · exact hextend _ h

/-- The loop of `receive`: frames are read until a message is complete or something is raised. -/
def assemble (opcode : Option UInt8) (payload : Bytes) (s : Socket) :
    Except Raised (Option Message) × Socket :=
  match _hread : s.readFrame with
  | .error error => (failed error, { s with isOpen := false })
  | .ok (frame, s') =>
      match _hturn : s'.handle frame opcode payload with
      | .ends result s => (result, s)
      | .goes opcode payload next => assemble opcode payload next
termination_by s.input.length
decreasing_by
  have hshorter := readFrame_input _hread
  rw [handle_input _hturn]
  exact hshorter

def receive (s : Socket) : Except Raised (Option Message) × Socket :=
  if !s.isOpen then (.ok none, s) else s.assemble none []

/-- So many calls of `receive`, one after the other. -/
def receives : Nat → Socket → List (Except Raised (Option Message)) × Socket
  | 0, s => ([], s)
  | n + 1, s =>
      let (result, s) := s.receive
      let (results, s) := receives n s
      (result :: results, s)

end Socket

end Zuri.Http.WebSocket
