import Zuri.Http.H2.SendWindows
import Mathlib.Data.List.Nodup

/-!
Along every run whose peer keeps the windows within their bound and closes no stream
that is being answered, the windows the connection keeps are the ones it was granted,
and every piece it sends is covered by them.
-/

namespace Zuri.Http.H2

open Frames Http2Connection Transition

/-- The log grows by events none of which is a frame read or a part of a body, and the
ledger moves as they say. -/
abbrev Emits (c d : Http2Connection) (g : SendLedger → SendLedger) : Prop :=
  Appends Http2Connection.log Covered SendLedger.hear c d g

theorem emits_note (c : Http2Connection) (event : Event)
    (hcovered : ∀ ledger, Covered ledger event) :
    Emits c (c.note event) (SendLedger.hear · event) :=
  .event rfl hcovered

theorem emits_write (c : Http2Connection) (type flags streamId : Nat) (payload : List UInt8)
    (hdata : type ≠ DATA) :
    Emits c (c.write type flags streamId payload)
      (SendLedger.send · ⟨type, flags, streamId, payload⟩) :=
  emits_note c (.wrote ⟨type, flags, streamId, payload⟩) fun _ _ h => absurd h hdata

theorem emits_neutral (c : Http2Connection) (type flags streamId : Nat) (payload : List UInt8)
    (hdata : type ≠ DATA) (hreset : type ≠ RST_STREAM) (hgoaway : type ≠ GOAWAY) :
    Emits c (c.write type flags streamId payload) id := by
  have h := emits_write c type flags streamId payload hdata
  have hsend : (SendLedger.send · ⟨type, flags, streamId, payload⟩) = id := by
    funext ledger
    simp [SendLedger.send, hdata, hreset, hgoaway]
  rwa [hsend] at h

theorem emits_reset (c : Http2Connection) (streamId errorCode : Nat) :
    Emits c (c.reset streamId errorCode) (SendLedger.closeWindow · streamId) :=
  emits_write (c.remove streamId) RST_STREAM 0 streamId (encodeError errorCode) (by decide)

theorem emits_grant (c : Http2Connection) (streamId increment : Nat) :
    Emits c (c.grant streamId increment) id := by
  unfold grant
  split
  · exact .same rfl
  · exact emits_neutral _ _ _ _ _ (by decide) (by decide) (by decide)

theorem emits_consume (c : Http2Connection) (length : Nat) : Emits c (c.consume length) id := by
  unfold consume
  simp only
  split
  · have hgrant := emits_grant { c with consumed := c.consumed + length } 0 (c.consumed + length)
    exact hgrant.trans (Appends.same rfl)
  · exact .same rfl

theorem emits_writeContinuations (n : Nat) (c : Http2Connection) (streamId limit : Nat)
    (rest : List UInt8) : Emits c (writeContinuations n c streamId limit rest) id := by
  induction n generalizing c rest with
  | zero => exact .same rfl
  | succ n ih =>
      unfold writeContinuations
      split
      · exact .same rfl
      · exact (emits_neutral _ _ _ _ _ (by decide) (by decide) (by decide)).trans (ih _ _)

theorem emits_writeHeaders (c : Http2Connection) (streamId : Nat) (block : List UInt8)
    (endStream : Bool) : Emits c (c.writeHeaders streamId block endStream) id := by
  unfold writeHeaders
  simp only
  split
  · exact emits_neutral _ _ _ _ _ (by decide) (by decide) (by decide)
  · exact (emits_neutral _ _ _ _ _ (by decide) (by decide) (by decide)).trans
      (emits_writeContinuations _ _ _ _ _)

theorem emits_fail (c : Http2Connection) (errorCode : Nat) (message : String)
    (hgoing : c.goingAway = false) :
    Emits c (c.fail errorCode message) fun ledger => { ledger with dead := true } := by
  unfold fail goAway
  rw [if_neg (by simp [hgoing])]
  exact emits_write { c with goingAway := true } GOAWAY 0 0
    (encodeGoaway c.lastStreamId errorCode (utf8 message.toList)) (by decide)

/-- The objects whose responses are being written or wait to be. -/
def Session.sending (s : Session) : List Nat :=
  s.writing.toList ++ (if s.conn.isServer then s.conn.ready else [])

/-- A body that waits for a window is that of a stream that has ended and whose object is
the only one of its name. -/
structure Parked (ledger : SendLedger) (c : Http2Connection) (object : Nat) : Prop where
  ended : ledger.ended (c.objects object).id = true
  waits : object ∉ c.ready
  known : object < c.nextObject
  last : (c.objects object).id ≤ c.lastStreamId
  only : ∀ entry ∈ c.streams, entry.1 = (c.objects object).id → entry.2 = object

theorem Parked.mono {ledger other : SendLedger} {c : Http2Connection} {object : Nat}
    (h : Parked ledger c object) (hended : ∀ id, ledger.ended id = true → other.ended id = true) :
    Parked other c object :=
  ⟨hended _ h.ended, h.waits, h.known, h.last, h.only⟩

structure Sending (isServer : Bool) (maxBodySize : Nat) (ledger : SendLedger) (s : Session) :
    Prop where
  role : s.conn.isServer = isServer
  maxBody : s.conn.maxBodySize = maxBodySize
  going : s.conn.goingAway = ledger.leaving
  kept : WindowsKept ledger s.conn
  named : ∀ entry ∈ s.conn.streams,
    (s.conn.objects entry.2).id = entry.1 ∧ entry.2 < s.conn.nextObject
  bodies : ledger.leaving = false → ∀ entry ∈ s.conn.streams,
    (s.conn.objects entry.2).data.length = ledger.body entry.1
  keys : (s.conn.streams.map Prod.fst).Nodup
  pending : ledger.leaving = false → isServer = true → ∀ object,
    s.conn.pendingHeaders = some object →
      ((s.conn.objects object).id, object) ∈ s.conn.streams ∧
        ledger.ended (s.conn.objects object).id = false
  sending : ∀ object ∈ s.sending, ((s.conn.objects object).id, object) ∈ s.conn.streams ∧
    (isServer = true → ledger.ended (s.conn.objects object).id = true)
  once : s.sending.Nodup
  parked : isServer = true → ∀ object ∈ s.conn.feeding, Parked ledger s.conn object
  last : isServer = true → ∀ entry ∈ s.conn.streams, entry.1 ≤ s.conn.lastStreamId

theorem Sending.same_object {isServer : Bool} {maxBodySize : Nat} {ledger : SendLedger}
    {s : Session} (h : Sending isServer maxBodySize ledger s) {id first second : Nat}
    (hfirst : (id, first) ∈ s.conn.streams) (hsecond : (id, second) ∈ s.conn.streams) :
    first = second := by
  have hinj := List.inj_on_of_nodup_map h.keys hfirst hsecond rfl
  cases hinj
  rfl

/-- The streams and the queues are as they were; the windows may have moved. -/
structure SameStreams (c d : Http2Connection) : Prop where
  isServer : d.isServer = c.isServer
  maxBodySize : d.maxBodySize = c.maxBodySize
  goingAway : d.goingAway = c.goingAway
  nextObject : d.nextObject = c.nextObject
  streams : d.streams = c.streams
  pendingHeaders : d.pendingHeaders = c.pendingHeaders
  ready : d.ready = c.ready
  feeding : d.feeding = c.feeding
  lastStreamId : d.lastStreamId = c.lastStreamId
  id : ∀ object, (d.objects object).id = (c.objects object).id

/-- The windows and the bodies are as they were too. -/
structure Still (c d : Http2Connection) : Prop extends SameStreams c d where
  sendWindow : d.sendWindow = c.sendWindow
  initial : d.peerInitialWindow = c.peerInitialWindow
  window : ∀ object, (d.objects object).sendWindow = (c.objects object).sendWindow
  data : ∀ object, (d.objects object).data = (c.objects object).data

theorem SameStreams.refl (c : Http2Connection) : SameStreams c c :=
  ⟨rfl, rfl, rfl, rfl, rfl, rfl, rfl, rfl, rfl, fun _ => rfl⟩

theorem SameStreams.trans {c d e : Http2Connection} (h : SameStreams c d)
    (k : SameStreams d e) : SameStreams c e where
  isServer := k.isServer.trans h.isServer
  maxBodySize := k.maxBodySize.trans h.maxBodySize
  goingAway := k.goingAway.trans h.goingAway
  nextObject := k.nextObject.trans h.nextObject
  streams := k.streams.trans h.streams
  pendingHeaders := k.pendingHeaders.trans h.pendingHeaders
  ready := k.ready.trans h.ready
  feeding := k.feeding.trans h.feeding
  lastStreamId := k.lastStreamId.trans h.lastStreamId
  id := fun object => (k.id object).trans (h.id object)

theorem Still.refl (c : Http2Connection) : Still c c :=
  ⟨.refl c, rfl, rfl, fun _ => rfl, fun _ => rfl⟩

theorem Still.trans {c d e : Http2Connection} (h : Still c d) (k : Still d e) : Still c e where
  toSameStreams := h.toSameStreams.trans k.toSameStreams
  sendWindow := k.sendWindow.trans h.sendWindow
  initial := k.initial.trans h.initial
  window := fun object => (k.window object).trans (h.window object)
  data := fun object => (k.data object).trans (h.data object)

theorem note_still (c : Http2Connection) (event : Event) : Still c (c.note event) :=
  ⟨⟨rfl, rfl, rfl, rfl, rfl, rfl, rfl, rfl, rfl, fun _ => rfl⟩, rfl, rfl, fun _ => rfl,
    fun _ => rfl⟩

theorem modify_sameStreams (c : Http2Connection) (object : Nat) (f : Http2Stream → Http2Stream)
    (hid : (f (c.objects object)).id = (c.objects object).id) :
    SameStreams c (c.modify object f) := by
  refine ⟨rfl, rfl, rfl, rfl, rfl, rfl, rfl, rfl, rfl, ?_⟩
  intro other
  by_cases ho : other = object
  · rw [ho, modify_objects, hid]
  · rw [modify_objects_ne c object other f ho]

theorem modify_still (c : Http2Connection) (object : Nat) (f : Http2Stream → Http2Stream)
    (hid : (f (c.objects object)).id = (c.objects object).id)
    (hwindow : (f (c.objects object)).sendWindow = (c.objects object).sendWindow)
    (hdata : (f (c.objects object)).data = (c.objects object).data) :
    Still c (c.modify object f) := by
  refine ⟨modify_sameStreams c object f hid, rfl, rfl, ?_, ?_⟩
  all_goals
    intro other
    by_cases ho : other = object
    · rw [ho, modify_objects]
      assumption
    · rw [modify_objects_ne c object other f ho]

/-- What of a connection neither its windows nor its streams depend on. -/
theorem counters_still (c : Http2Connection) (consumed peerMaxFrame peerMaxConcurrent : Nat)
    (encoderCapacity : Nat) (acked driven : Bool) (decoder : Decoder) :
    Still c { c with
      consumed := consumed, peerMaxFrame := peerMaxFrame, peerMaxConcurrent := peerMaxConcurrent,
      encoderCapacity := encoderCapacity, settingsAcked := acked, driven := driven,
      decoder := decoder } :=
  ⟨⟨rfl, rfl, rfl, rfl, rfl, rfl, rfl, rfl, rfl, fun _ => rfl⟩, rfl, rfl, fun _ => rfl,
    fun _ => rfl⟩

theorem grant_still (c : Http2Connection) (streamId increment : Nat) :
    Still c (c.grant streamId increment) := by
  unfold grant
  split
  · exact .refl c
  · exact note_still _ _

theorem consume_still (c : Http2Connection) (length : Nat) : Still c (c.consume length) := by
  have hcount := counters_still c (c.consumed + length) c.peerMaxFrame c.peerMaxConcurrent
    c.encoderCapacity c.settingsAcked c.driven c.decoder
  unfold consume
  simp only
  split
  · exact (hcount.trans (grant_still _ _ _)).trans (counters_still _ 0 _ _ _ _ _ _)
  · exact hcount

theorem writeContinuations_still (n : Nat) (c : Http2Connection) (streamId limit : Nat)
    (rest : List UInt8) : Still c (writeContinuations n c streamId limit rest) := by
  induction n generalizing c rest with
  | zero => exact .refl c
  | succ n ih =>
      unfold writeContinuations
      split
      · exact .refl c
      · exact (note_still _ _).trans (ih _ _)

theorem writeHeaders_still (c : Http2Connection) (streamId : Nat) (block : List UInt8)
    (endStream : Bool) : Still c (c.writeHeaders streamId block endStream) := by
  unfold writeHeaders
  simp only
  split
  · exact note_still _ _
  · exact (note_still _ _).trans (writeContinuations_still _ _ _ _ _)

theorem SameStreams.sending {c d : Http2Connection} (k : SameStreams c d) (writing : Option Nat) :
    Session.sending ⟨d, writing⟩ = Session.sending ⟨c, writing⟩ := by
  simp only [Session.sending, k.isServer, k.ready]

theorem Sending.sameStreams {isServer : Bool} {maxBodySize : Nat} {ledger other : SendLedger}
    {c d : Http2Connection} {writing : Option Nat}
    (h : Sending isServer maxBodySize ledger ⟨c, writing⟩) (k : SameStreams c d)
    (hleaving : other.leaving = ledger.leaving) (hended : other.ended = ledger.ended)
    (hbodies : ledger.leaving = false → ∀ entry ∈ c.streams,
      (d.objects entry.2).data.length = other.body entry.1)
    (hkept : WindowsKept other d) :
    Sending isServer maxBodySize other ⟨d, writing⟩ := by
  have hsending := k.sending writing
  exact
    { role := k.isServer.trans h.role
      maxBody := k.maxBodySize.trans h.maxBody
      going := by
        rw [hleaving]
        exact k.goingAway.trans h.going
      kept := hkept
      named := by
        intro entry he
        rw [k.id, k.nextObject]
        exact h.named entry (k.streams ▸ he)
      bodies := fun hl entry he => hbodies (hleaving ▸ hl) entry (k.streams ▸ he)
      keys := by
        rw [k.streams]
        exact h.keys
      pending := by
        intro hl hs object ho
        rw [k.id, k.streams, hended]
        exact h.pending (hleaving ▸ hl) hs object (k.pendingHeaders ▸ ho)
      sending := by
        intro object ho
        rw [k.id, k.streams, hended]
        exact h.sending object (hsending ▸ ho)
      once := hsending ▸ h.once
      parked := by
        intro hs object ho
        have hparked := h.parked hs object (k.feeding ▸ ho)
        exact
          { ended := by
              rw [k.id, hended]
              exact hparked.ended
            waits := k.ready ▸ hparked.waits
            known := k.nextObject ▸ hparked.known
            last := by
              rw [k.id, k.lastStreamId]
              exact hparked.last
            only := by
              rw [k.id, k.streams]
              exact hparked.only }
      last := by
        intro hs entry he
        rw [k.lastStreamId]
        exact h.last hs entry (k.streams ▸ he) }

theorem Sending.still {isServer : Bool} {maxBodySize : Nat} {ledger : SendLedger}
    {c d : Http2Connection} {writing : Option Nat}
    (h : Sending isServer maxBodySize ledger ⟨c, writing⟩) (k : Still c d) :
    Sending isServer maxBodySize ledger ⟨d, writing⟩ := by
  refine h.sameStreams k.toSameStreams rfl rfl ?_ ?_
  · intro hl entry he
    rw [k.data]
    exact h.bodies hl entry he
  exact
    { initial := k.initial.trans h.kept.initial
      conn := k.sendWindow.trans h.kept.conn
      streams := by
        intro entry he
        rw [k.window]
        exact h.kept.streams entry (k.streams ▸ he)
      bounded := h.kept.bounded }

section Moves

variable {isServer : Bool} {maxBodySize : Nat} {ledger : SendLedger} {c : Http2Connection}
  {writing : Option Nat}

/-- A stream that nobody sends on and whose header block is not open leaves the table; its
window may go as well. -/
theorem Sending.drop (h : Sending isServer maxBodySize ledger ⟨c, writing⟩) (id : Nat)
    (hfree : ∀ object ∈ Session.sending ⟨c, writing⟩, (c.objects object).id ≠ id)
    (hpending : ledger.leaving = false → isServer = true → ∀ object,
      c.pendingHeaders = some object → (c.objects object).id ≠ id) :
    Sending isServer maxBodySize ledger ⟨c.remove id, writing⟩ ∧
      Sending isServer maxBodySize (ledger.closeWindow id) ⟨c.remove id, writing⟩ := by
  have hmem : ∀ entry ∈ (c.remove id).streams, entry ∈ c.streams ∧ entry.1 ≠ id := by
    intro entry he
    obtain ⟨he, hne⟩ := List.mem_filter.mp he
    exact ⟨he, by simpa using hne⟩
  have hleft : ∀ entry ∈ c.streams, entry.1 ≠ id → entry ∈ (c.remove id).streams := by
    intro entry he hne
    exact List.mem_filter.mpr ⟨he, by simpa using hne⟩
  have hdrop : Sending isServer maxBodySize ledger ⟨c.remove id, writing⟩ :=
    { role := h.role
      maxBody := h.maxBody
      going := h.going
      kept :=
        { initial := h.kept.initial
          conn := h.kept.conn
          streams := fun entry he => h.kept.streams entry (hmem entry he).1
          bounded := h.kept.bounded }
      named := fun entry he => h.named entry (hmem entry he).1
      bodies := fun hl entry he => h.bodies hl entry (hmem entry he).1
      keys := (List.Sublist.map Prod.fst (List.filter_sublist)).nodup h.keys
      pending := by
        intro hl hs object ho
        obtain ⟨hin, hended⟩ := h.pending hl hs object ho
        exact ⟨hleft _ hin (hpending hl hs object ho), hended⟩
      sending := by
        intro object ho
        obtain ⟨hin, hended⟩ := h.sending object ho
        exact ⟨hleft _ hin (hfree object ho), hended⟩
      once := h.once
      parked := by
        intro hs object ho
        have hparked := h.parked hs object ho
        exact
          { ended := hparked.ended
            waits := hparked.waits
            known := hparked.known
            last := hparked.last
            only := fun entry he => hparked.only entry (hmem entry he).1 }
      last := fun hs entry he => h.last hs entry (hmem entry he).1 }
  refine ⟨hdrop, ?_⟩
  exact
    { hdrop with
      parked := fun hs object ho => (hdrop.parked hs object ho).mono fun _ hended => hended
      kept :=
        { initial := h.kept.initial
          conn := h.kept.conn
          streams := by
            intro entry he
            obtain ⟨he, hne⟩ := hmem entry he
            simp only [SendLedger.closeWindow, Function.update_of_ne hne]
            exact h.kept.streams entry he
          bounded :=
            { initial := h.kept.bounded.initial
              conn := h.kept.bounded.conn
              window := by
                intro other w hw
                by_cases ho : other = id
                · simp [SendLedger.closeWindow, ho] at hw
                · simp only [SendLedger.closeWindow, Function.update_of_ne ho] at hw
                  exact h.kept.bounded.window other w hw } } }

theorem Sending.reset (h : Sending isServer maxBodySize ledger ⟨c, writing⟩) (id errorCode : Nat)
    (hfree : ∀ object ∈ Session.sending ⟨c, writing⟩, (c.objects object).id ≠ id)
    (hpending : ledger.leaving = false → isServer = true → ∀ object,
      c.pendingHeaders = some object → (c.objects object).id ≠ id) :
    Sending isServer maxBodySize (ledger.closeWindow id) ⟨c.reset id errorCode, writing⟩ :=
  (h.drop id hfree hpending).2.still (note_still _ _)

/-- A stream on which something is sent is not the one of another name. -/
theorem Sending.free_of_absent (h : Sending isServer maxBodySize ledger ⟨c, writing⟩) {id : Nat}
    (habsent : ∀ entry ∈ c.streams, entry.1 ≠ id) :
    ∀ object ∈ Session.sending ⟨c, writing⟩, (c.objects object).id ≠ id :=
  fun object ho => habsent _ (h.sending object ho).1

section Open

theorem mem_openStream {id last : Nat} {entry : Nat × Nat}
    (he : entry ∈ ({ c with lastStreamId := last }.openStream id).streams) :
    (entry ∈ c.streams ∧ entry.1 ≠ id) ∨ entry = (id, c.nextObject) := by
  rcases List.mem_append.mp he with he | he
  · obtain ⟨he, hne⟩ := List.mem_filter.mp he
    exact .inl ⟨he, by simpa using hne⟩
  · exact .inr (List.mem_singleton.mp he)

theorem openStream_keeps {id : Nat} (last : Nat) {entry : Nat × Nat} (he : entry ∈ c.streams)
    (hne : entry.1 ≠ id) : entry ∈ ({ c with lastStreamId := last }.openStream id).streams :=
  List.mem_append_left _ (List.mem_filter.mpr ⟨he, by simpa using hne⟩)

theorem openStream_old (id last : Nat) {object : Nat} (ho : object < c.nextObject) :
    ({ c with lastStreamId := last }.openStream id).objects object = c.objects object := by
  simp [openStream, remove, note, Nat.ne_of_lt ho]

theorem openStream_new (id last : Nat) :
    ({ c with lastStreamId := last }.openStream id).objects c.nextObject =
      { id := id, sendWindow := c.peerInitialWindow } := by
  simp [openStream, remove, note]

/-- The window of a new stream is the initial one. -/
theorem Sending.open_kept (h : Sending isServer maxBodySize ledger ⟨c, writing⟩) (id last : Nat) :
    WindowsKept (ledger.openWindow id) ({ c with lastStreamId := last }.openStream id) where
  initial := h.kept.initial
  conn := h.kept.conn
  streams := by
    intro entry he
    rcases mem_openStream he with ⟨he, hne⟩ | rfl
    · rw [openStream_old id last (h.named entry he).2]
      simp only [SendLedger.openWindow, Function.update_of_ne hne]
      exact h.kept.streams entry he
    · rw [openStream_new id last]
      have hinitial := h.kept.initial
      simp only at hinitial
      simp [SendLedger.openWindow, hinitial]
  bounded :=
    { initial := h.kept.bounded.initial
      conn := h.kept.bounded.conn
      window := by
        intro other w hw
        by_cases ho : other = id
        · simp only [SendLedger.openWindow, ho, Function.update_self] at hw
          cases hw
          exact h.kept.bounded.initial
        · simp only [SendLedger.openWindow, Function.update_of_ne ho] at hw
          exact h.kept.bounded.window other w hw }

/-- A parked response stays parked when a stream is opened. -/
theorem Sending.open_parked (h : Sending isServer maxBodySize ledger ⟨c, writing⟩) {id last : Nat}
    (hs : isServer = true) (hlast : c.lastStreamId < id ∧ last = id) {object : Nat}
    (ho : object ∈ c.feeding) :
    Parked (ledger.openWindow id) ({ c with lastStreamId := last }.openStream id) object := by
  have hparked := h.parked hs object ho
  have hsame : ({ c with lastStreamId := last }.openStream id).objects object =
      c.objects object := openStream_old id last hparked.known
  have hle := hparked.last
  simp only at hle
  refine
    { ended := hsame ▸ hparked.ended
      waits := hparked.waits
      known := Nat.lt_succ_of_lt hparked.known
      last := ?_
      only := ?_ }
  · rw [hsame]
    change _ ≤ last
    omega
  · rw [hsame]
    intro entry he hid
    rcases mem_openStream he with ⟨he, _⟩ | rfl
    · exact hparked.only entry he hid
    · simp only at hid
      omega

/-- A new stream, on a server one of a higher name than all before. -/
theorem Sending.open (h : Sending isServer maxBodySize ledger ⟨c, writing⟩) (id last : Nat)
    (hfree : ∀ object ∈ Session.sending ⟨c, writing⟩, (c.objects object).id ≠ id)
    (hlast : isServer = true → c.lastStreamId < id ∧ last = id) :
    Sending isServer maxBodySize (ledger.openWindow id)
      ⟨{ c with lastStreamId := last }.openStream id, writing⟩ where
  role := h.role
  maxBody := h.maxBody
  going := h.going
  kept := h.open_kept id last
  named := by
    intro entry he
    rcases mem_openStream he with ⟨he, hne⟩ | rfl
    · obtain ⟨hid, hlt⟩ := h.named entry he
      rw [openStream_old id last hlt]
      exact ⟨hid, Nat.lt_succ_of_lt hlt⟩
    · rw [openStream_new id last]
      exact ⟨rfl, Nat.lt_succ_self _⟩
  bodies := by
    intro hl entry he
    rcases mem_openStream he with ⟨he, hne⟩ | rfl
    · rw [openStream_old id last (h.named entry he).2]
      simp only [SendLedger.openWindow, Function.update_of_ne hne]
      exact h.bodies hl entry he
    · rw [openStream_new id last]
      simp [SendLedger.openWindow]
  keys := by
    have hkeys : (({ c with lastStreamId := last }.openStream id).streams.map Prod.fst) =
        ((c.remove id).streams.map Prod.fst) ++ [id] := by
      simp [openStream, remove, note]
    rw [hkeys]
    apply List.Nodup.append ((List.Sublist.map Prod.fst (List.filter_sublist)).nodup h.keys)
      (List.nodup_singleton id)
    intro other ho hid
    obtain ⟨entry, he, rfl⟩ := List.mem_map.mp ho
    obtain ⟨_, hne⟩ := List.mem_filter.mp he
    simp [List.mem_singleton.mp hid] at hne
  pending := by
    intro hl hs object ho
    obtain ⟨hin, hended⟩ := h.pending hl hs object ho
    rw [openStream_old id last (h.named _ hin).2]
    have hle := h.last hs _ hin
    have hne := Nat.ne_of_lt (Nat.lt_of_le_of_lt hle (hlast hs).1)
    exact ⟨openStream_keeps last hin hne, hended⟩
  sending := by
    intro object ho
    obtain ⟨hin, hended⟩ := h.sending object ho
    rw [openStream_old id last (h.named _ hin).2]
    exact ⟨openStream_keeps last hin (hfree object ho), hended⟩
  once := h.once
  parked := fun hs _ ho => h.open_parked hs (hlast hs) ho
  last := by
    intro hs entry he
    obtain ⟨hlt, heq⟩ := hlast hs
    change _ ≤ last
    rcases mem_openStream he with ⟨he, _⟩ | rfl
    · have hle := h.last hs entry he
      simp only at hle
      omega
    · exact Nat.le_of_eq heq.symm

end Open

/-- The mark that a stream has ended, unless its header block is open. -/
theorem Sending.marked (h : Sending isServer maxBodySize ledger ⟨c, writing⟩) (frame : Frame)
    (hpending : c.pendingHeaders = none ∨ SendLedger.endsStream frame = false) :
    Sending isServer maxBodySize (ledger.markEnded frame) ⟨c, writing⟩ := by
  unfold SendLedger.markEnded
  split
  · rename_i hends
    have hnone : c.pendingHeaders = none := by
      rcases hpending with hnone | hopen
      · exact hnone
      · rw [hopen] at hends
        cases hends
    have hmono : ∀ id, ledger.ended id = true →
        Function.update ledger.ended frame.streamId true id = true := by
      intro id hid
      by_cases hsame : id = frame.streamId
      · rw [hsame, Function.update_self]
      · rw [Function.update_of_ne hsame, hid]
    exact
      { h with
        kept := ⟨h.kept.initial, h.kept.conn, h.kept.streams, h.kept.bounded.initial,
          h.kept.bounded.conn, h.kept.bounded.window⟩
        pending := fun _ _ object ho => absurd (hnone.symm.trans ho) (by simp)
        sending := fun object ho =>
          ⟨(h.sending object ho).1, fun hs => hmono _ ((h.sending object ho).2 hs)⟩
        parked := fun hs object ho => (h.parked hs object ho).mono hmono }
  · exact h

theorem Sending.withPending (h : Sending isServer maxBodySize ledger ⟨c, writing⟩)
    (pending : Option Nat)
    (hpending : ledger.leaving = false → isServer = true → ∀ object, pending = some object →
      ((c.objects object).id, object) ∈ c.streams ∧
        ledger.ended (c.objects object).id = false) :
    Sending isServer maxBodySize ledger ⟨{ c with pendingHeaders := pending }, writing⟩ :=
  { h with
    kept := ⟨h.kept.initial, h.kept.conn, h.kept.streams, h.kept.bounded⟩
    pending := hpending
    parked := fun hs object ho =>
      ⟨(h.parked hs object ho).ended, (h.parked hs object ho).waits, (h.parked hs object ho).known,
        (h.parked hs object ho).last, (h.parked hs object ho).only⟩ }

/-- A complete request joins the queue. -/
theorem Sending.push (h : Sending isServer maxBodySize ledger ⟨c, writing⟩) (object : Nat)
    (hnew : isServer = true → ((c.objects object).id, object) ∈ c.streams ∧
      ledger.ended (c.objects object).id = true ∧
        object ∉ Session.sending ⟨c, writing⟩ ∧ object ∉ c.feeding) :
    Sending isServer maxBodySize ledger ⟨{ c with ready := c.ready ++ [object] }, writing⟩ := by
  have hrole := h.role
  simp only at hrole
  have hsending : Session.sending ⟨{ c with ready := c.ready ++ [object] }, writing⟩ =
      Session.sending ⟨c, writing⟩ ++ (if isServer then [object] else []) := by
    simp only [Session.sending, hrole]
    split <;> simp
  exact
    { h with
      kept := ⟨h.kept.initial, h.kept.conn, h.kept.streams, h.kept.bounded⟩
      sending := by
        intro other ho
        rw [hsending] at ho
        rcases List.mem_append.mp ho with ho | ho
        · exact h.sending other ho
        · split at ho
          · rename_i hs
            cases List.mem_singleton.mp ho
            exact ⟨(hnew hs).1, fun _ => (hnew hs).2.1⟩
          · cases ho
      once := by
        rw [hsending]
        split
        · rename_i hs
          apply List.Nodup.append h.once (List.nodup_singleton object)
          intro other ho hother
          cases List.mem_singleton.mp hother
          exact (hnew hs).2.2.1 ho
        · rw [List.append_nil]
          exact h.once
      parked := by
        intro hs other ho
        have hparked := h.parked hs other ho
        refine ⟨hparked.ended, ?_, hparked.known, hparked.last, hparked.only⟩
        intro hready
        rcases List.mem_append.mp hready with hready | hready
        · exact hparked.waits hready
        · cases List.mem_singleton.mp hready
          exact (hnew hs).2.2.2 ho }

/-- Data of a stream in the table. -/
theorem Sending.body (h : Sending isServer maxBodySize ledger ⟨c, writing⟩) (object id : Nat)
    (payload : List UInt8) (hin : (id, object) ∈ c.streams) :
    Sending isServer maxBodySize (ledger.addBody id payload.length)
      ⟨c.received object payload, writing⟩ := by
  have hobject : ∀ other, ((c.received object payload).objects other).sendWindow =
      (c.objects other).sendWindow := by
    intro other
    unfold received
    by_cases ho : other = object
    · rw [ho, modify_objects]
    · rw [modify_objects_ne c object other _ ho]
  refine h.sameStreams (modify_sameStreams c object _ rfl) rfl rfl ?_ ?_
  · intro hl entry he
    unfold received
    by_cases hid : entry.1 = id
    · have hsame : entry.2 = object := h.same_object (hid ▸ he) hin
      have hlen := h.bodies hl entry he
      rw [hsame, hid] at hlen
      rw [hsame, modify_objects, hid]
      simp only [SendLedger.addBody, Function.update_self, List.length_append]
      rw [← hlen]
    · have hother : entry.2 ≠ object := by
        intro heq
        have hname := (h.named entry he).1
        rw [heq, (h.named _ hin).1] at hname
        exact hid hname.symm
      rw [modify_objects_ne c object _ _ hother]
      simp only [SendLedger.addBody, Function.update_of_ne hid]
      exact h.bodies hl entry he
  · exact
      { initial := h.kept.initial
        conn := h.kept.conn
        streams := by
          intro entry he
          rw [hobject]
          exact h.kept.streams entry he
        bounded := ⟨h.kept.bounded.initial, h.kept.bounded.conn, h.kept.bounded.window⟩ }

/-- Data of a stream that is not in the table. -/
theorem Sending.bodyAbsent (h : Sending isServer maxBodySize ledger ⟨c, writing⟩) (id length : Nat)
    (habsent : ∀ entry ∈ c.streams, entry.1 ≠ id) :
    Sending isServer maxBodySize (ledger.addBody id length) ⟨c, writing⟩ := by
  refine h.sameStreams (.refl c) rfl rfl ?_ ?_
  · intro hl entry he
    simp only [SendLedger.addBody, Function.update_of_ne (habsent entry he)]
    exact h.bodies hl entry he
  · exact ⟨h.kept.initial, h.kept.conn, h.kept.streams, h.kept.bounded.initial,
      h.kept.bounded.conn, h.kept.bounded.window⟩

theorem Sending.bodies_of_data (h : Sending isServer maxBodySize ledger ⟨c, writing⟩)
    {d : Http2Connection} (hdata : ∀ object, (d.objects object).data = (c.objects object).data) :
    ledger.leaving = false → ∀ entry ∈ c.streams,
      (d.objects entry.2).data.length = ledger.body entry.1 := by
  intro hl entry he
  rw [hdata]
  exact h.bodies hl entry he

/-- The window of the connection moves. -/
theorem Sending.moveConn (h : Sending isServer maxBodySize ledger ⟨c, writing⟩) (amount : Int)
    (hbounded : ledger.conn + amount ≤ maxWindow) :
    Sending isServer maxBodySize { ledger with conn := ledger.conn + amount }
      ⟨{ c with sendWindow := c.sendWindow + amount }, writing⟩ := by
  refine h.sameStreams ⟨rfl, rfl, rfl, rfl, rfl, rfl, rfl, rfl, rfl, fun _ => rfl⟩ rfl rfl
    h.bodies ?_
  exact
    { initial := h.kept.initial
      conn := by
        have hconn := h.kept.conn
        simp only at hconn ⊢
        rw [hconn]
      streams := h.kept.streams
      bounded := ⟨h.kept.bounded.initial, hbounded, h.kept.bounded.window⟩ }

/-- The window of a stream in the table moves. -/
theorem Sending.moveStream (h : Sending isServer maxBodySize ledger ⟨c, writing⟩)
    (object id : Nat) (amount : Int) (hin : (id, object) ∈ c.streams)
    (hbounded : (ledger.moveWindow id amount).Bounded) :
    Sending isServer maxBodySize (ledger.moveWindow id amount)
      ⟨c.modify object fun stream => { stream with sendWindow := stream.sendWindow + amount },
        writing⟩ := by
  have hdata : ∀ other, ((c.modify object fun stream =>
      { stream with sendWindow := stream.sendWindow + amount }).objects other).data =
        (c.objects other).data := by
    intro other
    by_cases ho : other = object
    · rw [ho, modify_objects]
    · rw [modify_objects_ne c object other _ ho]
  refine h.sameStreams (modify_sameStreams c object _ rfl) rfl rfl (h.bodies_of_data hdata) ?_
  exact
    { initial := h.kept.initial
      conn := h.kept.conn
      streams := by
        intro entry he
        have hwindow := h.kept.streams entry he
        by_cases hid : entry.1 = id
        · have hsame : entry.2 = object := h.same_object (hid ▸ he) hin
          rw [hsame] at hwindow ⊢
          rw [hid] at hwindow ⊢
          rw [modify_objects]
          simp [SendLedger.moveWindow, hwindow]
        · have hother : entry.2 ≠ object := by
            intro heq
            have hname := (h.named entry he).1
            rw [heq, (h.named _ hin).1] at hname
            exact hid hname.symm
          rw [modify_objects_ne c object _ _ hother]
          simp only [SendLedger.moveWindow, Function.update_of_ne hid]
          exact hwindow
      bounded := hbounded }

theorem Sending.moveAbsent (h : Sending isServer maxBodySize ledger ⟨c, writing⟩) (id : Nat)
    (amount : Int) (habsent : ∀ entry ∈ c.streams, entry.1 ≠ id)
    (hbounded : (ledger.moveWindow id amount).Bounded) :
    Sending isServer maxBodySize (ledger.moveWindow id amount) ⟨c, writing⟩ := by
  refine h.sameStreams (.refl c) rfl rfl h.bodies ?_
  exact
    { initial := h.kept.initial
      conn := h.kept.conn
      streams := by
        intro entry he
        simp only [SendLedger.moveWindow, Function.update_of_ne (habsent entry he)]
        exact h.kept.streams entry he
      bounded := hbounded }

end Moves

end Zuri.Http.H2
