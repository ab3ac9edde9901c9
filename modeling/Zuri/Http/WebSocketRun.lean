import Zuri.Http.WebSocketFrames

/-!
Messages over a WebSocket. A peer sends messages in fragments, with pings and pongs between them;
the socket gives the messages in order, each as a whole, and answers the pings, until the peer
closes. What the protocol forbids is raised, and what is refused while a frame is read closes the
socket.
-/

namespace Zuri.Http.WebSocket

namespace Socket

variable {s : Socket}

/-- The frame that is written: the whole of the payload, masked if a client writes it. -/
def written (opcode : Fin 16) (payload : Bytes) (s : Socket) : WireFrame :=
  ⟨true, 0, opcode, if s.isClient then some (s.random s.drawn) else none, payload⟩

/-- What writing leaves: the frame in the output, and a key drawn if it is masked. -/
def sent (opcode : Fin 16) (payload : Bytes) (s : Socket) : Socket :=
  { s with
    output := s.output ++ (s.written opcode payload).bytes
    drawn := if s.isClient then s.drawn + 1 else s.drawn }

theorem firstByte_final (opcode : Fin 16) :
    (128 ||| UInt8.ofNat opcode.val) = firstByte true 0 opcode := by
  revert opcode
  decide

theorem write_sent {opcode : Fin 16} {payload : Bytes}
    (hopen : s.isOpen = true ∨ UInt8.ofNat opcode.val = close)
    (hshort : 8 ≤ opcode.val → payload.length ≤ 125) :
    s.write (UInt8.ofNat opcode.val) payload = .ok (s.sent opcode payload) := by
  have hgate : ¬((!s.isOpen && decide (UInt8.ofNat opcode.val ≠ close)) = true) := by
    rcases hopen with hopen | hclose
    · simp [hopen]
    · simp [hclose]
  rw [write, if_neg hgate, opcode_toNat, if_neg (fun h => absurd (hshort h.1) (by omega)),
    firstByte_final]
  unfold sent written WireFrame.bytes WireFrame.body maskBit
  cases s.isClient with
  | true => simp
  | false => simp

end Socket

inductive ControlKind where
  | ping
  | pong

def ControlKind.opcode : ControlKind → Fin 16
  | .ping => 9
  | .pong => 10

/-- A ping or a pong, with a key in case it is masked. -/
structure Control where
  kind : ControlKind
  data : Bytes
  short : data.length ≤ 125
  key : Key

/-- A fragment of a message, and the control frames before it. -/
structure Fragment where
  before : List Control
  data : Bytes
  key : Key

inductive Kind where
  | text
  | binary

def Kind.opcode : Kind → Fin 16
  | .text => 1
  | .binary => 2

def Kind.byte (kind : Kind) : UInt8 := UInt8.ofNat kind.opcode.val

/-- A message in fragments. -/
structure Sending where
  kind : Kind
  parts : List Fragment
  last : Fragment

def keyed (masked : Bool) (key : Key) : Option Key := if masked then some key else none

def Control.wire (masked : Bool) (c : Control) : WireFrame :=
  ⟨true, 0, c.kind.opcode, keyed masked c.key, c.data⟩

def Fragment.wire (masked : Bool) (kind : Kind) (begun final : Bool) (p : Fragment) : WireFrame :=
  ⟨final, 0, if begun then 0 else kind.opcode, keyed masked p.key, p.data⟩

def controlsBytes (masked : Bool) (cs : List Control) : Bytes :=
  cs.flatMap fun c => (c.wire masked).bytes

/-- Fragments that do not end their message. -/
def partsBytes (masked : Bool) (kind : Kind) : Bool → List Fragment → Bytes
  | _, [] => []
  | begun, p :: ps =>
      controlsBytes masked p.before ++ (p.wire masked kind begun false).bytes ++
        partsBytes masked kind true ps

namespace Sending

def bytes (masked : Bool) (m : Sending) : Bytes :=
  partsBytes masked m.kind false m.parts ++ (controlsBytes masked m.last.before ++
    (m.last.wire masked m.kind (!m.parts.isEmpty) true).bytes)

def data (m : Sending) : Bytes := m.parts.flatMap Fragment.data ++ m.last.data

def controls (m : Sending) : List Control := m.parts.flatMap Fragment.before ++ m.last.before

def message (m : Sending) : Message := ⟨m.kind.byte, m.data⟩

end Sending

namespace Socket

variable {s : Socket} {rest : Bytes}

/-- Every ping is answered with its data. -/
def answer (s : Socket) (c : Control) : Socket :=
  match c.kind with
  | .ping => s.sent 10 c.data
  | .pong => s

def answered (cs : List Control) (s : Socket) : Socket := cs.foldl answer s

def Fits (s : Socket) (cs : List Control) : Prop := ∀ c ∈ cs, c.data.length ≤ s.maxMessageSize

/-- The socket, with other bytes to read. -/
def reading (input : Bytes) (s : Socket) : Socket := { s with input }

@[simp] theorem reading_isOpen (input : Bytes) (s : Socket) :
    (s.reading input).isOpen = s.isOpen := rfl

@[simp] theorem reading_isClient (input : Bytes) (s : Socket) :
    (s.reading input).isClient = s.isClient := rfl

@[simp] theorem reading_maxMessageSize (input : Bytes) (s : Socket) :
    (s.reading input).maxMessageSize = s.maxMessageSize := rfl

@[simp] theorem answer_isOpen (c : Control) (s : Socket) : (s.answer c).isOpen = s.isOpen := by
  unfold answer
  cases c.kind <;> rfl

@[simp] theorem answer_isClient (c : Control) (s : Socket) :
    (s.answer c).isClient = s.isClient := by
  unfold answer
  cases c.kind <;> rfl

@[simp] theorem answer_maxMessageSize (c : Control) (s : Socket) :
    (s.answer c).maxMessageSize = s.maxMessageSize := by
  unfold answer
  cases c.kind <;> rfl

theorem answer_reading (c : Control) (s : Socket) (input : Bytes) :
    (s.reading input).answer c = (s.answer c).reading input := by
  unfold answer
  cases c.kind <;> rfl

theorem answered_append (cs cs' : List Control) (s : Socket) :
    answered (cs ++ cs') s = answered cs' (answered cs s) := List.foldl_append

/-- Answering changes the output and the keys only. -/
theorem answered_same (cs : List Control) (s : Socket) :
    (answered cs s).isOpen = s.isOpen ∧ (answered cs s).isClient = s.isClient ∧
      (answered cs s).maxMessageSize = s.maxMessageSize := by
  induction cs generalizing s with
  | nil => exact ⟨rfl, rfl, rfl⟩
  | cons c cs ih =>
      obtain ⟨h₁, h₂, h₃⟩ := ih (answer s c)
      exact ⟨h₁.trans (answer_isOpen c s), h₂.trans (answer_isClient c s),
        h₃.trans (answer_maxMessageSize c s)⟩

@[simp] theorem answered_isOpen (cs : List Control) (s : Socket) :
    (answered cs s).isOpen = s.isOpen := (answered_same cs s).1

@[simp] theorem answered_isClient (cs : List Control) (s : Socket) :
    (answered cs s).isClient = s.isClient := (answered_same cs s).2.1

@[simp] theorem answered_maxMessageSize (cs : List Control) (s : Socket) :
    (answered cs s).maxMessageSize = s.maxMessageSize := (answered_same cs s).2.2

theorem assemble_frame {s' : Socket} {frame : Frame} (hread : s.readFrame = .ok (frame, s'))
    (opcode : Option UInt8) (payload : Bytes) : s.assemble opcode payload =
      match s'.handle frame opcode payload with
      | .ends result s => (result, s)
      | .goes opcode payload next => next.assemble opcode payload := by
  rw [assemble]
  split
  · next herror =>
      rw [hread] at herror
      exact absurd herror (by simp)
  · next hok =>
      obtain ⟨rfl, rfl⟩ := Prod.mk.inj (Except.ok.inj (hread.symm.trans hok))
      split
      · next hturn => rw [hturn]
      · next hturn => rw [hturn]

theorem assemble_error {error : Raised} (hread : s.readFrame = .error error)
    (opcode : Option UInt8) (payload : Bytes) :
    s.assemble opcode payload = (failed error, { s with isOpen := false }) := by
  rw [assemble]
  split
  · next herror => rw [Except.error.inj (hread.symm.trans herror)]
  · next hok =>
      rw [hread] at hok
      exact absurd hok (by simp)

theorem keyed_isSome (masked : Bool) (key : Key) : (keyed masked key).isSome = masked := by
  cases masked <;> rfl

theorem Control.allowed {c : Control} (hfits : c.data.length ≤ s.maxMessageSize) :
    Allowed (c.wire (!s.isClient)) s where
  reserved := rfl
  short _ := c.short
  masked := keyed_isSome _ _
  size := hfits

theorem readFrame_reading {f : WireFrame} (hf : Allowed f s) :
    (s.reading (f.bytes ++ rest)).readFrame = .ok (f.frame, s.reading rest) :=
  readFrame_bytes (s := s.reading (f.bytes ++ rest)) ⟨hf.reserved, hf.short, hf.masked, hf.size⟩ rfl

theorem handle_control {c : Control} (hopen : s.isOpen = true) (opcode : Option UInt8)
    (payload : Bytes) : s.handle ⟨UInt8.ofNat c.kind.opcode.val, true, c.data⟩ opcode payload =
      .goes opcode payload (s.answer c) := by
  unfold answer
  cases c.kind with
  | ping =>
      have hwrite : s.write (UInt8.ofNat (10 : Fin 16).val) c.data = .ok (s.sent 10 c.data) :=
        write_sent (.inl hopen) fun _ => c.short
      rw [show UInt8.ofNat (10 : Fin 16).val = pong from rfl] at hwrite
      change s.handle ⟨9, true, c.data⟩ opcode payload = _
      simp only [handle]
      rw [if_pos (by decide), if_neg (by decide), if_pos (by decide), hwrite]
  | pong =>
      change s.handle ⟨10, true, c.data⟩ opcode payload = _
      simp only [handle]
      rw [if_pos (by decide), if_neg (by decide), if_neg (by decide), if_pos (by decide)]

theorem assemble_controls {cs : List Control} (hopen : s.isOpen = true) (hfits : s.Fits cs)
    (opcode : Option UInt8) (payload : Bytes) :
    (s.reading (controlsBytes (!s.isClient) cs ++ rest)).assemble opcode payload =
      ((answered cs s).reading rest).assemble opcode payload := by
  induction cs generalizing s with
  | nil => rfl
  | cons c cs ih =>
      have hallowed := Control.allowed (hfits c List.mem_cons_self)
      rw [controlsBytes, List.flatMap_cons, List.append_assoc,
        assemble_frame (readFrame_reading hallowed)]
      unfold WireFrame.frame Control.wire
      rw [handle_control (by exact hopen), answer_reading]
      rw [← s.answer_isClient c]
      exact ih ((answer_isOpen c s).trans hopen) fun c' hc' => by
        rw [answer_maxMessageSize]
        exact hfits c' (List.mem_cons_of_mem _ hc')

/-- The opcode of the message that is assembled. -/
def current (kind : Kind) (begun : Bool) : Option UInt8 := if begun then some kind.byte else none

theorem Fragment.allowed {p : Fragment} {kind : Kind} {begun final : Bool}
    (hfits : p.data.length ≤ s.maxMessageSize) :
    Allowed (p.wire (!s.isClient) kind begun final) s where
  reserved := rfl
  short h := by
    have hdata : (if begun then 0 else kind.opcode : Fin 16).val < 8 := by
      cases begun <;> cases kind <;> decide
    exact absurd h (Nat.not_le.mpr hdata)
  masked := keyed_isSome _ _
  size := hfits

theorem handle_fragment (p : Fragment) (kind : Kind) (begun final masked : Bool)
    (payload : Bytes) :
    s.handle (p.wire masked kind begun final).frame (current kind begun) payload =
      s.extend ⟨(p.wire masked kind begun final).frame.opcode, final, p.data⟩ kind.byte payload := by
  cases begun <;> cases kind <;> rfl

theorem assemble_fragment {p : Fragment} {kind : Kind} {begun final : Bool} {payload : Bytes}
    (hopen : s.isOpen = true) (hbefore : s.Fits p.before)
    (hfits : (payload ++ p.data).length ≤ s.maxMessageSize) :
    (s.reading (controlsBytes (!s.isClient) p.before ++
        ((p.wire (!s.isClient) kind begun final).bytes ++ rest))).assemble
          (current kind begun) payload =
      if final then (.ok (some ⟨kind.byte, payload ++ p.data⟩), (answered p.before s).reading rest)
      else ((answered p.before s).reading rest).assemble (current kind true) (payload ++ p.data) := by
  have hsize : p.data.length ≤ (answered p.before s).maxMessageSize := by
    rw [answered_maxMessageSize]
    rw [List.length_append] at hfits
    omega
  rw [assemble_controls hopen hbefore, ← answered_isClient p.before s,
    assemble_frame (readFrame_reading (Fragment.allowed hsize)), handle_fragment]
  have hlimit : ¬(answered p.before s).maxMessageSize < (payload ++ p.data).length := by
    rw [answered_maxMessageSize]
    omega
  unfold extend
  simp only [reading_maxMessageSize, if_neg hlimit]
  cases final <;> rfl

theorem assemble_parts {ps : List Fragment} {kind : Kind} {begun : Bool} {payload : Bytes}
    (hopen : s.isOpen = true) (hbefore : s.Fits (ps.flatMap Fragment.before))
    (hfits : (payload ++ ps.flatMap Fragment.data).length ≤ s.maxMessageSize) :
    (s.reading (partsBytes (!s.isClient) kind begun ps ++ rest)).assemble
        (current kind begun) payload =
      ((answered (ps.flatMap Fragment.before) s).reading rest).assemble
        (current kind (begun || !ps.isEmpty)) (payload ++ ps.flatMap Fragment.data) := by
  induction ps generalizing s begun payload with
  | nil => simp [partsBytes, answered]
  | cons p ps ih =>
      rw [List.flatMap_cons, ← List.append_assoc] at hfits
      rw [List.flatMap_cons] at hbefore
      have hone : (payload ++ p.data).length ≤ s.maxMessageSize := by
        rw [List.length_append] at hfits
        omega
      rw [partsBytes, List.append_assoc, List.append_assoc,
        assemble_fragment hopen (fun c hc => hbefore c (List.mem_append_left _ hc)) hone,
        if_neg (by decide), ← answered_isClient p.before s,
        ih (by rw [answered_isOpen, hopen])
          (fun c hc => by
            rw [answered_maxMessageSize]
            exact hbefore c (List.mem_append_right _ hc))
          (by rwa [answered_maxMessageSize])]
      rw [List.flatMap_cons, List.flatMap_cons, answered_append, List.append_assoc]
      simp

/-- A message is given as a whole. -/
theorem receive_message {m : Sending} (hopen : s.isOpen = true) (hbefore : s.Fits m.controls)
    (hfits : m.data.length ≤ s.maxMessageSize) :
    (s.reading (m.bytes (!s.isClient) ++ rest)).receive =
      (.ok (some m.message), (answered m.controls s).reading rest) := by
  rw [receive, if_neg (by simp [hopen])]
  have hparts : ([] ++ m.parts.flatMap Fragment.data).length ≤ s.maxMessageSize := by
    rw [Sending.data, List.length_append] at hfits
    rw [List.nil_append]
    omega
  change Socket.assemble (current m.kind false) [] _ = _
  rw [Sending.bytes, List.append_assoc, List.append_assoc,
    assemble_parts hopen (fun c hc => hbefore c (List.mem_append_left _ hc)) hparts,
    ← answered_isClient (m.parts.flatMap Fragment.before) s, Bool.false_or,
    assemble_fragment (by rw [answered_isOpen, hopen])
      (fun c hc => by
        rw [answered_maxMessageSize]
        exact hbefore c (List.mem_append_right _ hc))
      (by
        rw [answered_maxMessageSize, List.nil_append]
        exact hfits)]
  rw [if_pos rfl, Sending.controls, answered_append, Sending.message, Sending.data,
    List.nil_append]

/-- Messages are given in order. -/
theorem receives_messages {ms : List Sending} (hopen : s.isOpen = true)
    (hfits : ∀ m ∈ ms, s.Fits m.controls ∧ m.data.length ≤ s.maxMessageSize) :
    (s.reading (ms.flatMap (Sending.bytes (!s.isClient)) ++ rest)).receives ms.length =
      (ms.map fun m => .ok (some m.message),
        (answered (ms.flatMap Sending.controls) s).reading rest) := by
  induction ms generalizing s with
  | nil => rfl
  | cons m ms ih =>
      obtain ⟨hcontrols, hdata⟩ := hfits m List.mem_cons_self
      rw [List.length_cons, receives, List.flatMap_cons, List.append_assoc,
        receive_message hopen hcontrols hdata, ← answered_isClient m.controls s]
      simp only
      rw [ih (by rw [answered_isOpen, hopen])]
      · rw [List.flatMap_cons, answered_append]
        rfl
      · intro m' hm'
        have hm := hfits m' (List.mem_cons_of_mem _ hm')
        refine ⟨fun c hc => ?_, ?_⟩
        · rw [answered_maxMessageSize]
          exact hm.1 c hc
        · rw [answered_maxMessageSize]
          exact hm.2

end Socket

/-- What comes before a frame: fragments of a message that has not ended, and control frames. -/
structure Begun where
  kind : Kind
  parts : List Fragment
  before : List Control

namespace Begun

def bytes (masked : Bool) (b : Begun) : Bytes :=
  partsBytes masked b.kind false b.parts ++ controlsBytes masked b.before

def data (b : Begun) : Bytes := b.parts.flatMap Fragment.data

def controls (b : Begun) : List Control := b.parts.flatMap Fragment.before ++ b.before

/-- Whether a message has begun. -/
def midway (b : Begun) : Bool := !b.parts.isEmpty

end Begun

namespace Socket

variable {s : Socket} {rest : Bytes} {b : Begun}

theorem receive_begun (hopen : s.isOpen = true) (hbefore : s.Fits b.controls)
    (hfits : b.data.length ≤ s.maxMessageSize) :
    (s.reading (b.bytes (!s.isClient) ++ rest)).receive =
      ((answered b.controls s).reading rest).assemble (current b.kind b.midway) b.data := by
  rw [receive, if_neg (by simp [hopen])]
  change Socket.assemble (current b.kind false) [] _ = _
  rw [Begun.bytes, List.append_assoc,
    assemble_parts hopen (fun c hc => hbefore c (List.mem_append_left _ hc))
      (by rwa [List.nil_append]),
    ← answered_isClient (b.parts.flatMap Fragment.before) s, Bool.false_or,
    assemble_controls (by rw [answered_isOpen, hopen]) fun c hc => by
      rw [answered_maxMessageSize]
      exact hbefore c (List.mem_append_right _ hc)]
  rw [Begun.controls, answered_append]
  rfl

theorem Allowed.answered {f : WireFrame} (hf : Allowed f s) (cs : List Control) :
    Allowed f (answered cs s) where
  reserved := hf.reserved
  short := hf.short
  masked := by rw [answered_isClient]; exact hf.masked
  size := by rw [answered_maxMessageSize]; exact hf.size

/-- A frame that is allowed is handled as what comes before it leaves the socket. -/
theorem receive_frame {f : WireFrame} (hopen : s.isOpen = true) (hbefore : s.Fits b.controls)
    (hfits : b.data.length ≤ s.maxMessageSize) (hf : Allowed f s)
    {result : Except Raised (Option Message)} {next : Socket}
    (hhandle : ((answered b.controls s).reading rest).handle f.frame (current b.kind b.midway)
      b.data = .ends result next) :
    (s.reading (b.bytes (!s.isClient) ++ (f.bytes ++ rest))).receive = (result, next) := by
  rw [receive_begun hopen hbefore hfits,
    assemble_frame (readFrame_reading (hf.answered b.controls)), hhandle]

def closing (masked : Bool) (key : Key) (data : Bytes) : WireFrame :=
  ⟨true, 0, 8, keyed masked key, data⟩

/-- The socket after the peer has closed: the closing frame is answered unless one was sent. -/
def closedBy (data : Bytes) (s : Socket) : Socket :=
  { if s.closeSent then s else { s with closeSent := true }.sent 8 data with
    isOpen := false, closed := true }

theorem handle_close (data : Bytes) (hshort : data.length ≤ 125) (opcode : Option UInt8)
    (payload : Bytes) : s.handle ⟨8, true, data⟩ opcode payload =
      .ends (.ok (some ⟨close, data⟩)) (s.closedBy data) := by
  have hwrite : { s with closeSent := true }.write (UInt8.ofNat (8 : Fin 16).val) data =
      .ok ({ s with closeSent := true }.sent 8 data) :=
    write_sent (.inr rfl) fun _ => hshort
  rw [show UInt8.ofNat (8 : Fin 16).val = close from rfl] at hwrite
  unfold handle
  simp only
  rw [if_pos (by decide), if_neg (by decide), if_neg (by decide), if_neg (by decide),
    if_pos (by decide), tryWrite, hwrite]
  rfl

theorem receive_close {key : Key} {data : Bytes} (hopen : s.isOpen = true)
    (hbefore : s.Fits b.controls) (hfits : b.data.length ≤ s.maxMessageSize)
    (hshort : data.length ≤ 125) (hdata : data.length ≤ s.maxMessageSize) :
    (s.reading (b.bytes (!s.isClient) ++ ((closing (!s.isClient) key data).bytes ++ rest))).receive =
      (.ok (some ⟨close, data⟩), ((answered b.controls s).reading rest).closedBy data) :=
  receive_frame hopen hbefore hfits ⟨rfl, fun _ => hshort, keyed_isSome _ _, hdata⟩
    (handle_close data hshort _ _)

theorem receive_closed (hclosed : s.isOpen = false) : s.receive = (.ok none, s) := by
  rw [receive, hclosed]
  rfl

/-- A reserved bit, a control frame that is too long, or masking that the end does not expect. -/
def Refused (f : WireFrame) (s : Socket) : Prop :=
  f.reserved ≠ 0 ∨ (8 ≤ f.opcode.val ∧ 125 < f.payload.length) ∨ f.key.isSome = s.isClient

/-- A control frame that is not final or of no known kind, a continuation of nothing, or a
message within another. -/
def Misplaced (f : WireFrame) (midway : Bool) : Prop :=
  (8 ≤ f.opcode.val ∧ f.final = false) ∨ 10 < f.opcode.val ∨
    (f.opcode = 0 ∧ midway = false) ∨ (f.opcode ≠ 0 ∧ f.opcode.val < 8 ∧ midway = true)

theorem receive_refused {f : WireFrame} (hopen : s.isOpen = true) (hbefore : s.Fits b.controls)
    (hfits : b.data.length ≤ s.maxMessageSize) (hf : Refused f s) :
    ∃ message, (s.reading (b.bytes (!s.isClient) ++ (f.bytes ++ rest))).receive =
      (.error (.protocol message),
        { (answered b.controls s).reading (f.bytes ++ rest) with isOpen := false }) := by
  rw [receive_begun hopen hbefore hfits]
  obtain ⟨message, herror⟩ := readFrame_refused (f := f)
    (s := (answered b.controls s).reading (f.bytes ++ rest)) rfl (by
      rw [reading_isClient, answered_isClient]
      exact hf)
  exact ⟨message, assemble_error herror _ _⟩

theorem handle_misplaced {f : WireFrame} {kind : Kind} {midway : Bool} (hf : Misplaced f midway)
    (payload : Bytes) : ∃ message, s.handle f.frame (current kind midway) payload =
      .ends (.error (.protocol message)) s := by
  have hzero : ∀ opcode : Fin 16, UInt8.ofNat opcode.val = 0 ↔ opcode = 0 := by decide
  have hknown : ∀ opcode : Fin 16, 10 < opcode.val → UInt8.ofNat opcode.val ≠ ping ∧
      UInt8.ofNat opcode.val ≠ pong ∧ UInt8.ofNat opcode.val ≠ close := by decide
  unfold handle WireFrame.frame
  simp only [opcode_toNat]
  by_cases hcontrol : 8 ≤ f.opcode.val
  · rw [if_pos hcontrol]
    by_cases hfinal : f.final = false
    · exact ⟨_, if_pos (by simp [hfinal])⟩
    · have hunknown : 10 < f.opcode.val := by
        rcases hf with hf | hf | hf | hf
        · exact absurd hf.2 hfinal
        · exact hf
        · exact absurd hcontrol (by simp [hf.1])
        · omega
      obtain ⟨h₁, h₂, h₃⟩ := hknown f.opcode hunknown
      rw [if_neg (by simpa using hfinal), if_neg h₁, if_neg h₂, if_neg h₃]
      exact ⟨_, rfl⟩
  · rw [if_neg hcontrol]
    rcases hf with hf | hf | ⟨hf, rfl⟩ | ⟨hf, -, rfl⟩
    · exact absurd hf.1 hcontrol
    · omega
    · exact ⟨_, if_pos ((hzero _).mpr hf)⟩
    · exact ⟨_, if_pos (mt (hzero _).mp hf)⟩

theorem receive_misplaced {f : WireFrame} (hopen : s.isOpen = true) (hbefore : s.Fits b.controls)
    (hfits : b.data.length ≤ s.maxMessageSize) (hallowed : Allowed f s)
    (hf : Misplaced f b.midway) :
    ∃ message next, (s.reading (b.bytes (!s.isClient) ++ (f.bytes ++ rest))).receive =
      (.error (.protocol message), next) := by
  have hmisplaced : ∃ message, ((answered b.controls s).reading rest).handle f.frame
      (current b.kind b.midway) b.data = .ends (.error (.protocol message))
        ((answered b.controls s).reading rest) := handle_misplaced hf b.data
  obtain ⟨message, hhandle⟩ := hmisplaced
  exact ⟨message, _, receive_frame hopen hbefore hfits hallowed hhandle⟩

/-- What is sent to a socket, and by it, arrives. -/
structure Arrives (s : Socket) : Prop where
  messages : ∀ (ms : List Sending) (rest : Bytes),
    (∀ m ∈ ms, s.Fits m.controls ∧ m.data.length ≤ s.maxMessageSize) →
      (s.reading (ms.flatMap (Sending.bytes (!s.isClient)) ++ rest)).receives ms.length =
        (ms.map fun m => .ok (some m.message),
          (answered (ms.flatMap Sending.controls) s).reading rest)
  closes : ∀ (b : Begun) (key : Key) (data rest : Bytes), s.Fits b.controls →
    b.data.length ≤ s.maxMessageSize → data.length ≤ 125 → data.length ≤ s.maxMessageSize →
      (s.reading (b.bytes (!s.isClient) ++
        ((closing (!s.isClient) key data).bytes ++ rest))).receive =
          (.ok (some ⟨close, data⟩), ((answered b.controls s).reading rest).closedBy data)
  refuses : ∀ (b : Begun) (f : WireFrame) (rest : Bytes), s.Fits b.controls →
    b.data.length ≤ s.maxMessageSize → Refused f s →
      ∃ message next, (s.reading (b.bytes (!s.isClient) ++ (f.bytes ++ rest))).receive =
        (.error (.protocol message), next) ∧ next.receive = (.ok none, next)
  raises : ∀ (b : Begun) (f : WireFrame) (rest : Bytes), s.Fits b.controls →
    b.data.length ≤ s.maxMessageSize → Allowed f s → Misplaced f b.midway →
      ∃ message next, (s.reading (b.bytes (!s.isClient) ++ (f.bytes ++ rest))).receive =
        (.error (.protocol message), next)
  writes : ∀ (peer : Socket) (opcode : Fin 16) (payload rest : Bytes),
    peer.isClient = !s.isClient → (8 ≤ opcode.val → payload.length ≤ 125) →
      payload.length ≤ peer.maxMessageSize →
        ∃ next bytes, s.write (UInt8.ofNat opcode.val) payload = .ok next ∧
          next.output = s.output ++ bytes ∧
            (peer.reading (bytes ++ rest)).readFrame =
              .ok (⟨UInt8.ofNat opcode.val, true, payload⟩, peer.reading rest)

/-- Everything arrives at an open socket. -/
theorem open_arrives (s : Socket) (hopen : s.isOpen = true) : Arrives s where
  messages _ _ hfits := receives_messages hopen hfits
  closes _ _ _ _ hbefore hfits hshort hdata := receive_close hopen hbefore hfits hshort hdata
  refuses b f rest hbefore hfits hf := by
    have hrefused : ∃ message, (s.reading (b.bytes (!s.isClient) ++ (f.bytes ++ rest))).receive =
        (.error (.protocol message), { (answered b.controls s).reading (f.bytes ++ rest) with
          isOpen := false }) := receive_refused hopen hbefore hfits hf
    obtain ⟨message, hreceive⟩ := hrefused
    exact ⟨message, _, hreceive, receive_closed rfl⟩
  raises _ _ _ hbefore hfits hallowed hf := receive_misplaced hopen hbefore hfits hallowed hf
  writes peer opcode payload rest hrole hshort hsize := by
    refine ⟨_, (s.written opcode payload).bytes, write_sent (.inl hopen) hshort, rfl, ?_⟩
    refine readFrame_reading (f := s.written opcode payload) ⟨rfl, hshort, ?_, hsize⟩
    rw [hrole, written]
    cases s.isClient <;> rfl

/-- A server's socket that has sent nothing, with a limit on the size of messages. -/
def server (limit : Nat) (exact : limit ≤ 2 ^ 53) : Socket where
  isClient := false
  maxMessageSize := limit
  exact := exact
  isOpen := true
  closeSent := false
  closed := false
  input := []
  ending := .eof
  output := []
  random _ _ := 0
  drawn := 0

/-- The text AB in one frame. -/
def sendingAB : Sending := ⟨.text, [], ⟨[], [65, 66], fun _ => 7⟩⟩

/-- A fragment that continues nothing. -/
def strayA : WireFrame := ⟨true, 0, 0, some fun _ => 7, [65]⟩

theorem open_arrives_server :
    ((server 8388608 (by decide)).reading (sendingAB.bytes true)).receives 1 =
        ([.ok (some ⟨text, [65, 66]⟩)], (server 8388608 (by decide)).reading []) ∧
      ((server 8388608 (by decide)).reading
        ((closing true (fun _ => 7) [3, 232]).bytes ++ [])).receive =
          (.ok (some ⟨close, [3, 232]⟩), ((server 8388608 (by decide)).reading []).closedBy [3, 232]) ∧
      (∃ message next, ((server 8388608 (by decide)).reading
        ((closing false (fun _ => 7) []).bytes ++ [])).receive =
          (.error (.protocol message), next) ∧ next.receive = (.ok none, next)) ∧
      (∃ message next, ((server 8388608 (by decide)).reading (strayA.bytes ++ [])).receive =
        (.error (.protocol message), next)) ∧
      (∃ next bytes, (server 8388608 (by decide)).write text [65] = .ok next ∧
        next.output = [] ++ bytes ∧
          ({ server 8388608 (by decide) with isClient := true }.reading (bytes ++ [])).readFrame =
            .ok (⟨text, true, [65]⟩,
              { server 8388608 (by decide) with isClient := true }.reading [])) := by
  have harrives := open_arrives (server 8388608 (by decide)) rfl
  have hnone : Fits (server 8388608 (by decide)) [] := fun c hc => absurd hc List.not_mem_nil
  refine ⟨?_, ?_, ?_, ?_, ?_⟩
  · have hone := harrives.messages [sendingAB] [] fun m hm => by
      rw [List.mem_singleton.mp hm]
      exact ⟨hnone, by decide⟩
    rwa [List.append_nil, List.flatMap_singleton] at hone
  · exact harrives.closes ⟨.text, [], []⟩ (fun _ => 7) [3, 232] [] hnone (by decide) (by decide)
      (by decide)
  · exact harrives.refuses ⟨.text, [], []⟩ (closing false (fun _ => 7) []) [] hnone (by decide)
      (.inr (.inr rfl))
  · exact harrives.raises ⟨.text, [], []⟩ strayA [] hnone (by decide)
      ⟨rfl, fun h => absurd h (by decide), rfl, by decide⟩ (.inr (.inr (.inl ⟨rfl, rfl⟩)))
  · exact harrives.writes { server 8388608 (by decide) with isClient := true } 1 [65] [] rfl
      (fun h => absurd h (by decide)) (by decide)

/-- A message over the limit does not arrive, and a continuation of nothing leaves the socket open. -/
theorem open_arrives_fails :
    (((server 1 (by decide)).reading (sendingAB.bytes true)).receive).1 =
        .error (.protocol "frame of 2 bytes exceeds the message limit") ∧
      ((((server 8388608 (by decide)).reading (strayA.bytes ++ sendingAB.bytes true)).receives 2)).1 =
        [.error (.protocol "a continuation frame with nothing to continue"),
          .ok (some sendingAB.message)] := by
  constructor
  · have hread : ((server 1 (by decide)).reading (sendingAB.bytes true)).readFrame =
        .error (.protocol "frame of 2 bytes exceeds the message limit") := by rfl
    rw [receive, if_neg (by decide), assemble_error hread]
    rfl
  · have hread : ((server 8388608 (by decide)).reading
        (strayA.bytes ++ sendingAB.bytes true)).readFrame =
          .ok (strayA.frame, (server 8388608 (by decide)).reading (sendingAB.bytes true)) := by rfl
    have hnext : ((server 8388608 (by decide)).reading (sendingAB.bytes true)).readFrame =
        .ok (⟨text, true, [65, 66]⟩, (server 8388608 (by decide)).reading []) := by rfl
    simp only [receives]
    rw [receive, if_neg (by decide), assemble_frame hread]
    change [_, (((server 8388608 (by decide)).reading (sendingAB.bytes true)).receive).1] = _
    rw [receive, if_neg (by decide), assemble_frame hnext]
    rfl

end Socket

end Zuri.Http.WebSocket
