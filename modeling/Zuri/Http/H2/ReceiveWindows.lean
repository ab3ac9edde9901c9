import Zuri.Http.H2.SendRun

/-!
The windows this side grants, read off the log: what it announces and what its updates
add, less the octets of DATA that come in, their padding with them. A window that is not
refilled at once is one from which less than the refill threshold is missing.
-/

namespace Zuri.Http.H2

open Frames Http2Connection Transition

/-- What this side has granted less what it received, for the connection and for every
stream. As on the sending side, nothing more is kept once the connection is given up. -/
structure ReceiveLedger where
  dead : Bool := false
  leaving : Bool := false
  initial : Int := 65535
  conn : Int := 65535
  window : Nat → Int := fun _ => 0

namespace ReceiveLedger

def moveWindow (ledger : ReceiveLedger) (id : Nat) (amount : Int) : ReceiveLedger :=
  { ledger with window := Function.update ledger.window id (ledger.window id + amount) }

def grant (ledger : ReceiveLedger) (id increment : Nat) : ReceiveLedger :=
  if id = 0 then { ledger with conn := ledger.conn + increment }
  else ledger.moveWindow id increment

/-- A frame as it stands on the wire. -/
def take (ledger : ReceiveLedger) (wire : Frame) : ReceiveLedger :=
  if wire.type = DATA ∧ wire.streamId ≠ 0 then
    { ledger.moveWindow wire.streamId (-wire.payload.length) with
      conn := ledger.conn - wire.payload.length }
  else if wire.type = GOAWAY then { ledger with leaving := true }
  else ledger

def send (ledger : ReceiveLedger) (frame : Frame) : ReceiveLedger :=
  if frame.type = SETTINGS then
    if frame.hasFlag FLAG_ACK then ledger
    else
      match settingOf SETTINGS_INITIAL_WINDOW_SIZE frame.payload with
      | some value => { ledger with initial := value }
      | none => ledger
  else if frame.type = WINDOW_UPDATE then
    ledger.grant frame.streamId (SendLedger.incrementOf frame)
  else if frame.type = GOAWAY then { ledger with dead := true }
  else ledger

def hear (ledger : ReceiveLedger) : Event → ReceiveLedger
  | .opened id => { ledger with window := Function.update ledger.window id ledger.initial }
  | .read _ _ wire =>
      match readFrame maxFrameSize wire with
      | .ok _ => ledger.take wire
      | .error _ => ledger
  | .wrote frame => ledger.send frame
  | .malformed _ | .decoded _ | .undecoded _ | .handed _ _ _ _ => ledger

end ReceiveLedger

/-- DATA comes without padding, and none comes once the peer has said that it goes away. -/
def PlainEvent (ledger : ReceiveLedger) : Event → Prop
  | .read _ _ wire =>
      ledger.dead = false → wire.type = DATA → wire.streamId ≠ 0 →
        wire.padded = false ∧ ledger.leaving = false
  | _ => True

/-- What is missing from a window is counted, and is less than what is refilled at once. -/
structure WindowsRefilled (ledger : ReceiveLedger) (c : Http2Connection) : Prop where
  conn : ledger.conn = initialWindow - c.consumed
  low : c.consumed < windowRefillAt
  streams : ∀ entry ∈ c.streams,
    ledger.window entry.1 = initialWindow - (c.objects entry.2).consumed ∧
      (c.objects entry.2).consumed < windowRefillAt

structure Receiving (ledger : ReceiveLedger) (c : Http2Connection) : Prop
    extends WindowsRefilled ledger c where
  going : c.goingAway = ledger.leaving
  initial : ledger.initial = initialWindow
  named : ∀ entry ∈ c.streams,
    (c.objects entry.2).id = entry.1 ∧ entry.2 < c.nextObject
  keys : (c.streams.map Prod.fst).Nodup

theorem Receiving.same_object {ledger : ReceiveLedger} {c : Http2Connection}
    (h : Receiving ledger c) {id first second : Nat} (hfirst : (id, first) ∈ c.streams)
    (hsecond : (id, second) ∈ c.streams) : first = second := by
  have hinj := List.inj_on_of_nodup_map h.keys hfirst hsecond rfl
  cases hinj
  rfl

abbrev Grants (c d : Http2Connection) (g : ReceiveLedger → ReceiveLedger) : Prop :=
  Appends Http2Connection.log (fun _ _ => True) ReceiveLedger.hear c d g

/-- What is granted and what is received is as it was; streams may have left the table. -/
structure Idle (c d : Http2Connection) : Prop where
  goingAway : d.goingAway = c.goingAway
  consumed : d.consumed = c.consumed
  nextObject : d.nextObject = c.nextObject
  streams : d.streams.Sublist c.streams
  name : ∀ object, (d.objects object).id = (c.objects object).id
  counted : ∀ object, (d.objects object).consumed = (c.objects object).consumed
  grants : Grants c d id

theorem Idle.refl (c : Http2Connection) : Idle c c :=
  ⟨rfl, rfl, rfl, List.Sublist.refl _, fun _ => rfl, fun _ => rfl, .same rfl⟩

theorem Idle.trans {c d e : Http2Connection} (h : Idle c d) (k : Idle d e) : Idle c e where
  goingAway := k.goingAway.trans h.goingAway
  consumed := k.consumed.trans h.consumed
  nextObject := k.nextObject.trans h.nextObject
  streams := k.streams.trans h.streams
  name := fun object => (k.name object).trans (h.name object)
  counted := fun object => (k.counted object).trans (h.counted object)
  grants := h.grants.trans k.grants

theorem Receiving.idle {ledger : ReceiveLedger} {c d : Http2Connection} (h : Receiving ledger c)
    (k : Idle c d) : Receiving ledger d where
  conn := k.consumed ▸ h.conn
  low := k.consumed ▸ h.low
  streams := by
    intro entry he
    rw [k.counted]
    exact h.streams entry (k.streams.subset he)
  going := k.goingAway.trans h.going
  initial := h.initial
  named := by
    intro entry he
    rw [k.name, k.nextObject]
    exact h.named entry (k.streams.subset he)
  keys := (k.streams.map Prod.fst).nodup h.keys

/-- Nothing that is granted or received is among what the ledger does not look at. -/
theorem counters_idle (c : Http2Connection) (sendWindow initial : Int) (decoder : Decoder)
    (capacity maxFrame maxConcurrent last next : Nat) (acked driven : Bool)
    (pending : Option Nat) (ready feeding : List Nat) :
    Idle c { c with
      sendWindow := sendWindow, peerInitialWindow := initial, decoder := decoder,
      encoderCapacity := capacity, peerMaxFrame := maxFrame, peerMaxConcurrent := maxConcurrent,
      lastStreamId := last, nextStreamId := next, settingsAcked := acked, driven := driven,
      pendingHeaders := pending, ready := ready, feeding := feeding } :=
  ⟨rfl, rfl, rfl, List.Sublist.refl _, fun _ => rfl, fun _ => rfl, .same rfl⟩

theorem note_idle (c : Http2Connection) (event : Event)
    (h : ∀ ledger, ReceiveLedger.hear ledger event = ledger) : Idle c (c.note event) :=
  ⟨rfl, rfl, rfl, List.Sublist.refl _, fun _ => rfl, fun _ => rfl,
    [event], rfl, h, fun _ _ _ => trivial⟩

theorem write_idle (c : Http2Connection) (type flags streamId : Nat) (payload : List UInt8)
    (hsettings : type ≠ SETTINGS) (hwindow : type ≠ WINDOW_UPDATE) (hgoaway : type ≠ GOAWAY) :
    Idle c (c.write type flags streamId payload) := by
  apply note_idle
  intro ledger
  simp [ReceiveLedger.hear, ReceiveLedger.send, hsettings, hwindow, hgoaway]

theorem modify_idle (c : Http2Connection) (object : Nat) (f : Http2Stream → Http2Stream)
    (hname : (f (c.objects object)).id = (c.objects object).id)
    (hcounted : (f (c.objects object)).consumed = (c.objects object).consumed) :
    Idle c (c.modify object f) := by
  refine ⟨rfl, rfl, rfl, List.Sublist.refl _, ?_, ?_, .same rfl⟩
  all_goals
    intro other
    by_cases ho : other = object
    · rw [ho, modify_objects]
      assumption
    · rw [modify_objects_ne c object other f ho]

theorem remove_idle (c : Http2Connection) (id : Nat) : Idle c (c.remove id) :=
  ⟨rfl, rfl, rfl, List.filter_sublist, fun _ => rfl, fun _ => rfl, .same rfl⟩

theorem reset_idle (c : Http2Connection) (streamId errorCode : Nat) :
    Idle c (c.reset streamId errorCode) :=
  (remove_idle c streamId).trans
    (write_idle _ _ _ _ _ (by decide) (by decide) (by decide))

theorem writeContinuations_idle (n : Nat) (c : Http2Connection) (streamId limit : Nat)
    (rest : List UInt8) : Idle c (writeContinuations n c streamId limit rest) := by
  induction n generalizing c rest with
  | zero => exact .refl c
  | succ n ih =>
      unfold writeContinuations
      split
      · exact .refl c
      · exact (write_idle _ _ _ _ _ (by decide) (by decide) (by decide)).trans (ih _ _)

theorem writeHeaders_idle (c : Http2Connection) (streamId : Nat) (block : List UInt8)
    (endStream : Bool) : Idle c (c.writeHeaders streamId block endStream) := by
  unfold writeHeaders
  simp only
  split
  · exact write_idle _ _ _ _ _ (by decide) (by decide) (by decide)
  · exact (write_idle _ _ _ _ _ (by decide) (by decide) (by decide)).trans
      (writeContinuations_idle _ _ _ _ _)

theorem refuseBody_idle (c : Http2Connection) (object : Nat) : Idle c (c.refuseBody object) :=
  (writeHeaders_idle c _ _ _).trans (reset_idle _ _ _)

theorem markEnded_idle (c : Http2Connection) (object : Nat) (ends : Bool) :
    Idle c (c.markEnded object ends) := by
  unfold markEnded
  split
  · exact modify_idle c object _ rfl rfl
  · exact .refl c

theorem sendPiece_idle (c : Http2Connection) (object : Nat) (piece : List UInt8) (last : Bool) :
    Idle c (c.sendPiece object piece last) := by
  unfold sendPiece
  have hwrite := write_idle c DATA (if last then FLAG_END_STREAM else 0) (c.objects object).id piece
    (by decide) (by decide) (by decide)
  have htaken := modify_idle (c.write DATA (if last then FLAG_END_STREAM else 0)
    (c.objects object).id piece) object
      (fun stream => { stream with sendWindow := stream.sendWindow - piece.length }) rfl rfl
  refine (hwrite.trans htaken).trans ?_
  exact ⟨rfl, rfl, rfl, List.Sublist.refl _, fun _ => rfl, fun _ => rfl, .same rfl⟩

theorem finishData_idle (c : Http2Connection) (object : Nat) : Idle c (c.finishData object) :=
  write_idle c DATA _ _ [] (by decide) (by decide) (by decide)

theorem shiftWindows_idle (c : Http2Connection) (delta : Int) : Idle c (c.shiftWindows delta) := by
  unfold shiftWindows
  generalize c.streams = entries
  induction entries generalizing c with
  | nil => exact .refl c
  | cons entry entries ih => exact (modify_idle c entry.2 _ rfl rfl).trans (ih _)

theorem fail_grants (c : Http2Connection) (errorCode : Nat) (message : String)
    (hgoing : c.goingAway = false) :
    Grants c (c.fail errorCode message) fun ledger => { ledger with dead := true } := by
  unfold fail goAway
  rw [if_neg (by simp [hgoing])]
  exact Appends.event (e := Event.wrote ⟨GOAWAY, 0, 0, _⟩) rfl fun _ => trivial

theorem applySetting_idle {c d : Http2Connection} {identifier value : Nat}
    (h : c.applySetting identifier value = (d, true)) : Idle c d := by
  have hstored : ∀ maxFrame initial maxConcurrent capacity,
      Idle c { c with
        peerMaxFrame := maxFrame, peerInitialWindow := initial
        peerMaxConcurrent := maxConcurrent, encoderCapacity := capacity } :=
    fun maxFrame initial maxConcurrent capacity =>
      counters_idle c _ initial _ capacity maxFrame maxConcurrent _ _ _ _ _ _ _
  unfold applySetting at h
  split at h
  · split at h
    · cases h
    · cases h
      exact hstored value _ _ _
  · split at h
    · split at h
      · cases h
      · cases h
        exact (hstored _ value _ _).trans (shiftWindows_idle _ _)
    · split at h
      · cases h
        exact hstored _ _ value _
      · split at h
        · cases h
          exact hstored _ _ _ value
        · cases h
          exact .refl _

theorem applySetting_fails {c d : Http2Connection} {identifier value : Nat}
    (h : c.applySetting identifier value = (d, false)) :
    ∃ errorCode message, d = c.fail errorCode message := by
  unfold applySetting at h
  split at h
  · split at h
    · cases h
      exact ⟨_, _, rfl⟩
    · cases h
  · split at h
    · split at h
      · cases h
        exact ⟨_, _, rfl⟩
      · cases h
    · split at h
      · cases h
      · split at h <;> cases h

theorem applySettings_idle (values : List (Nat × Nat)) {c d : Http2Connection}
    (h : applySettings values c = (d, true)) : Idle c d := by
  induction values generalizing c with
  | nil =>
      cases h
      exact .refl _
  | cons entry values ih =>
      unfold applySettings at h
      split at h
      · rename_i mid heq
        exact (applySetting_idle heq).trans (ih h)
      · cases h

theorem applySettings_grants (values : List (Nat × Nat)) {c d : Http2Connection}
    (hgoing : c.goingAway = false) (h : applySettings values c = (d, false)) :
    Grants c d fun ledger => { ledger with dead := true } := by
  induction values generalizing c with
  | nil => cases h
  | cons entry values ih =>
      unfold applySettings at h
      split at h
      · rename_i mid heq
        have hidle := applySetting_idle heq
        exact hidle.grants.trans (ih (hidle.goingAway.trans hgoing) h)
      · rename_i mid heq
        cases h
        obtain ⟨errorCode, message, rfl⟩ := applySetting_fails heq
        exact fail_grants c errorCode message hgoing

section Moves

variable {ledger : ReceiveLedger} {c : Http2Connection}

theorem Receiving.open (h : Receiving ledger c) (id : Nat) :
    Receiving { ledger with window := Function.update ledger.window id ledger.initial }
      (c.openStream id) := by
  have hmem : ∀ entry ∈ (c.openStream id).streams,
      (entry ∈ c.streams ∧ entry.1 ≠ id) ∨ entry = (id, c.nextObject) := by
    intro entry he
    rcases List.mem_append.mp he with he | he
    · obtain ⟨he, hne⟩ := List.mem_filter.mp he
      exact .inl ⟨he, by simpa using hne⟩
    · exact .inr (List.mem_singleton.mp he)
  have hold : ∀ object < c.nextObject, (c.openStream id).objects object = c.objects object := by
    intro object ho
    simp [openStream, remove, note, Nat.ne_of_lt ho]
  have hnew : (c.openStream id).objects c.nextObject =
      { id := id, sendWindow := c.peerInitialWindow } := by
    simp [openStream, remove, note]
  exact
    { conn := h.conn
      low := h.low
      streams := by
        intro entry he
        rcases hmem entry he with ⟨he, hne⟩ | rfl
        · rw [hold _ (h.named entry he).2]
          simp only [Function.update_of_ne hne]
          exact h.streams entry he
        · rw [hnew]
          simp [h.initial, windowRefillAt]
      going := h.going
      initial := h.initial
      named := by
        intro entry he
        rcases hmem entry he with ⟨he, hne⟩ | rfl
        · obtain ⟨hname, hlt⟩ := h.named entry he
          rw [hold _ hlt]
          exact ⟨hname, Nat.lt_succ_of_lt hlt⟩
        · rw [hnew]
          exact ⟨rfl, Nat.lt_succ_self _⟩
      keys := by
        have hkeys : (c.openStream id).streams.map Prod.fst =
            ((c.remove id).streams.map Prod.fst) ++ [id] := by
          simp [openStream, remove, note]
        rw [hkeys]
        apply List.Nodup.append ((List.Sublist.map Prod.fst (List.filter_sublist)).nodup h.keys)
          (List.nodup_singleton id)
        intro other ho hid
        obtain ⟨entry, he, rfl⟩ := List.mem_map.mp ho
        obtain ⟨_, hne⟩ := List.mem_filter.mp he
        simp [List.mem_singleton.mp hid] at hne }

theorem Receiving.moveAbsent (h : Receiving ledger c) (id : Nat) (amount : Int)
    (habsent : ∀ entry ∈ c.streams, entry.1 ≠ id) : Receiving (ledger.moveWindow id amount) c :=
  { h with
    streams := by
      intro entry he
      simp only [ReceiveLedger.moveWindow, Function.update_of_ne (habsent entry he)]
      exact h.streams entry he }

/-- A stream whose window is moved leaves the table. -/
theorem Receiving.drop (h : Receiving ledger c) {d : Http2Connection} (object id : Nat)
    (amount : Int) (f : Http2Stream → Http2Stream) (hin : (id, object) ∈ c.streams)
    (k : Idle (c.modify object f) d) (hgone : ∀ entry ∈ d.streams, entry.1 ≠ id) :
    Receiving (ledger.moveWindow id amount) d := by
  have hleft : ∀ entry ∈ d.streams, entry ∈ c.streams ∧
      (c.modify object f).objects entry.2 = c.objects entry.2 := by
    intro entry he
    have hmem : entry ∈ c.streams := k.streams.subset he
    refine ⟨hmem, modify_objects_ne c object _ f ?_⟩
    intro heq
    have hname := (h.named entry hmem).1
    rw [heq, (h.named _ hin).1] at hname
    exact hgone entry he hname.symm
  exact
    { conn := k.consumed ▸ h.conn
      low := k.consumed ▸ h.low
      streams := by
        intro entry he
        rw [k.counted, (hleft entry he).2]
        simp only [ReceiveLedger.moveWindow, Function.update_of_ne (hgone entry he)]
        exact h.streams entry (hleft entry he).1
      going := k.goingAway.trans h.going
      initial := h.initial
      named := by
        intro entry he
        rw [k.name, k.nextObject, (hleft entry he).2]
        exact h.named entry (hleft entry he).1
      keys := (k.streams.map Prod.fst).nodup h.keys }

/-- The window of a stream moves as much as what is counted of it. -/
theorem Receiving.restock (h : Receiving ledger c) (object id counted : Nat) (amount : Int)
    (f : Http2Stream → Http2Stream) (hin : (id, object) ∈ c.streams)
    (hname : (f (c.objects object)).id = (c.objects object).id)
    (hcounted : (f (c.objects object)).consumed = counted) (hlow : counted < windowRefillAt)
    (hamount : amount = (c.objects object).consumed - counted) :
    Receiving (ledger.moveWindow id amount) (c.modify object f) where
  conn := h.conn
  low := h.low
  streams := by
    intro entry he
    have hwindow := h.streams entry he
    by_cases hid : entry.1 = id
    · have hsame : entry.2 = object := h.same_object (hid ▸ he) hin
      rw [hsame, hid] at hwindow
      rw [hsame, hid, modify_objects, hcounted]
      simp only [ReceiveLedger.moveWindow, Function.update_self]
      omega
    · have hother : entry.2 ≠ object := by
        intro heq
        have hnamed := (h.named entry he).1
        rw [heq, (h.named _ hin).1] at hnamed
        exact hid hnamed.symm
      rw [modify_objects_ne c object _ _ hother]
      simp only [ReceiveLedger.moveWindow, Function.update_of_ne hid]
      exact hwindow
  going := h.going
  initial := h.initial
  named := by
    intro entry he
    by_cases hobject : entry.2 = object
    · rw [hobject, modify_objects, hname, ← hobject]
      exact h.named entry he
    · rw [modify_objects_ne c object _ _ hobject]
      exact h.named entry he
  keys := h.keys

end Moves

/-- The increment a grant puts on the wire. -/
def grantOf (increment : Nat) : Nat := readU32 (writeU32 increment) 0 &&& 2147483647

theorem grantOf_eq (increment : Nat) (h : increment < 2 ^ 31) : grantOf increment = increment := by
  unfold grantOf
  rw [readU32_writeU32 _ (by omega)]
  change increment &&& (2 ^ 31 - 1) = increment
  rw [Nat.and_two_pow_sub_one_eq_mod, Nat.mod_eq_of_lt h]

theorem incrementOf_grant (streamId increment : Nat) :
    SendLedger.incrementOf ⟨WINDOW_UPDATE, 0, streamId, writeU32 increment⟩ =
      grantOf increment := by
  simp [SendLedger.incrementOf, grantOf, writeU32]

theorem grant_grants (c : Http2Connection) (streamId increment : Nat) :
    Grants c (c.grant streamId increment) (ReceiveLedger.grant · streamId
      (grantOf increment)) := by
  unfold Http2Connection.grant
  split
  · rename_i hzero
    refine ⟨[], (List.append_nil _).symm, ?_, fun _ _ _ => trivial⟩
    intro ledger
    simp [hzero, grantOf_eq 0 (by decide), ReceiveLedger.grant, ReceiveLedger.moveWindow]
  · refine ⟨[.wrote ⟨WINDOW_UPDATE, 0, streamId, writeU32 increment⟩], rfl, ?_,
      fun _ _ _ => trivial⟩
    intro ledger
    simp [ReceiveLedger.hear, ReceiveLedger.send, incrementOf_grant]

theorem consume_refilled (c : Http2Connection) (length : Nat) (hlength : length ≤ maxFrameSize) :
    ∃ granted : Nat,
      Grants c (c.consume length) (ReceiveLedger.grant · 0 granted) ∧
      ∀ ledger, Receiving ledger c →
        Receiving { ledger with conn := ledger.conn - length + granted } (c.consume length) := by
  unfold consume
  simp only
  split
  · rename_i hfull
    refine ⟨grantOf (c.consumed + length), ?_, ?_⟩
    · exact ((Appends.same rfl).trans (grant_grants _ _ _)).trans (Appends.same rfl)
    · intro ledger h
      have hconn := h.conn
      have hlow := h.low
      unfold windowRefillAt at hfull hlow
      unfold maxFrameSize at hlength
      rw [grantOf_eq _ (by omega)]
      unfold Http2Connection.grant
      rw [if_neg (by omega)]
      exact
        { h with
          conn := by
            simp only
            omega
          low := by
            change 0 < windowRefillAt
            decide }
  · rename_i hroom
    refine ⟨0, ⟨[], (List.append_nil _).symm, by simp [ReceiveLedger.grant], by simp⟩, ?_⟩
    intro ledger h
    have hconn := h.conn
    exact
      { h with
        conn := by
          simp only
          omega
        low := by
          simp only
          omega }

theorem grant_modify (c : Http2Connection) (streamId increment object : Nat)
    (f : Http2Stream → Http2Stream) (hpos : increment ≠ 0) :
    (c.modify object f).grant streamId increment =
      (c.write WINDOW_UPDATE 0 streamId (writeU32 increment)).modify object f := by
  unfold grant
  rw [if_neg hpos]
  rfl

theorem refill_refilled (c : Http2Connection) (object : Nat) (payload : List UInt8)
    (hlength : payload.length ≤ maxFrameSize) :
    ∃ granted : Nat,
      Grants c ((c.received object payload).refill object)
        (ReceiveLedger.grant · (c.objects object).id granted) ∧
      ∀ ledger, Receiving ledger c → ((c.objects object).id, object) ∈ c.streams →
        Receiving (ledger.moveWindow (c.objects object).id (-payload.length + granted))
          ((c.received object payload).refill object) := by
  have hcount : ((c.received object payload).objects object).consumed =
      (c.objects object).consumed + payload.length := by
    unfold received
    rw [modify_objects]
  have hname : ((c.received object payload).objects object).id = (c.objects object).id := by
    unfold received
    rw [modify_objects]
  unfold refill
  rw [hcount, hname]
  split
  · rename_i hfull
    refine ⟨grantOf ((c.objects object).consumed + payload.length), ?_, ?_⟩
    · exact ((Appends.same rfl).trans (grant_grants _ _ _)).trans (Appends.same rfl)
    · intro ledger h hin
      have hlow := (h.streams _ hin).2
      unfold windowRefillAt at hfull
      simp only [windowRefillAt] at hlow
      unfold maxFrameSize at hlength
      rw [grantOf_eq _ (by omega)]
      unfold received
      rw [grant_modify c _ _ object _ (by omega), modify_modify]
      have hnote : Receiving ledger (c.write WINDOW_UPDATE 0 (c.objects object).id
          (writeU32 ((c.objects object).consumed + payload.length))) :=
        ⟨⟨h.conn, h.low, h.streams⟩, h.going, h.initial, h.named, h.keys⟩
      refine hnote.restock object (c.objects object).id 0 _ _ hin rfl rfl (by decide) ?_
      simp only [write, note]
      omega
  · rename_i hroom
    refine ⟨0, ⟨[], (List.append_nil _).symm, ?_, by simp⟩, ?_⟩
    · intro ledger
      simp [ReceiveLedger.grant, ReceiveLedger.moveWindow]
    · intro ledger h hin
      refine h.restock object _ ((c.objects object).consumed + payload.length) _ _ hin rfl rfl
        (by omega) ?_
      omega

theorem readFrame_shape {limit : Nat} {wire frame : Frame}
    (h : readFrame limit wire = .ok frame) :
    frame.payload.length ≤ limit ∧ frame.type = wire.type ∧ frame.streamId = wire.streamId ∧
      (wire.padded = false → frame = wire) := by
  unfold readFrame at h
  simp only at h
  split at h
  · cases h
  · rename_i hfits
    split at h
    · rename_i hpadded
      split at h
      · cases h
      · rename_i pad rest hpayload
        split at h
        · cases h
        · cases h
          refine ⟨?_, rfl, rfl, fun hplain => by simp [hpadded] at hplain⟩
          rw [hpayload, List.length_cons] at hfits
          simp only [List.length_take]
          omega
    · cases h
      exact ⟨by omega, rfl, rfl, fun _ => rfl⟩

/-- The log grows in a way that does not depend on the ledger; and if the windows were
refilled before, they are again once the frame is handled, unless the connection is given
up. -/
def Refilled (c : Http2Connection) (frame : Frame) (d : Http2Connection) : Prop :=
  ∃ g, Grants c d g ∧ ∀ ledger : ReceiveLedger, Receiving ledger c →
    (g (ledger.take frame)).dead = false → Receiving (g (ledger.take frame)) d

theorem refilled_of_dead {c d : Http2Connection} {frame : Frame}
    (h : Grants c d fun ledger => { ledger with dead := true }) : Refilled c frame d :=
  ⟨_, h, fun _ _ hdead => by cases hdead⟩

theorem fail_refilled (c : Http2Connection) (frame : Frame) (errorCode : Nat) (message : String)
    (hgoing : c.goingAway = false) : Refilled c frame (c.fail errorCode message) :=
  refilled_of_dead (fail_grants c errorCode message hgoing)

theorem Idle.refilled {c d : Http2Connection} {frame : Frame} (h : Idle c d)
    (hdata : frame.type ≠ DATA) (hgoaway : frame.type ≠ GOAWAY) : Refilled c frame d := by
  refine ⟨id, h.grants, ?_⟩
  intro ledger hreceiving _
  have htake : ledger.take frame = ledger := by
    simp [ReceiveLedger.take, hdata, hgoaway]
  rw [htake]
  exact hreceiving.idle h

/-- A part of a header block leaves the windows alone, or the connection is given up. -/
theorem collected_idle {c : Http2Connection} {object : Nat} {payload : List UInt8}
    {frame : Frame} {result : Http2Connection × Option Nat}
    (hcollected : Collected c object payload frame result) (hgoing : c.goingAway = false) :
    Idle c result.1 ∨ Grants c result.1 fun ledger => { ledger with dead := true } := by
  have hfragment : Idle c (c.withFragment object (c.gathered object payload)) :=
    modify_idle c object _ rfl rfl
  cases hcollected with
  | large hlong =>
      exact .inr (hfragment.grants.trans (fail_grants _ _ _ hgoing))
  | garbled hlong hends e hdecode =>
      have hnote := (note_idle { c.withFragment object (c.gathered object payload) with
        pendingHeaders := none } (.undecoded e) fun _ => rfl).grants
      refine .inr (Appends.trans (g := id) (Appends.same rfl) (hnote.trans (fail_grants _ _ _ ?_)))
      exact hgoing
  | part hlong hends =>
      exact .inl (hfragment.trans (counters_idle _ _ _ _ _ _ _ _ _ _ _ (some object) _ _))
  | whole hlong hends decoded decoder hdecode =>
      refine .inl ?_
      have hread := counters_idle (c.withFragment object (c.gathered object payload)) c.sendWindow
        c.peerInitialWindow decoder c.encoderCapacity c.peerMaxFrame c.peerMaxConcurrent
        c.lastStreamId c.nextStreamId c.settingsAcked c.driven none c.ready c.feeding
      refine ((hfragment.trans hread).trans (note_idle _ (.decoded decoded) fun _ => rfl)).trans
        (modify_idle _ object _ ?_ ?_)
      all_goals
        unfold storeFields
        simp only
        split <;> split <;> rfl

/-- The same for a block of a stream that is opened for it. -/
theorem opened_refilled {c : Http2Connection} {frame : Frame} {payload : List UInt8}
    {result : Http2Connection × Option Nat}
    (hcollected : Collected (c.openStream frame.streamId) c.nextObject payload frame result)
    (hgoing : c.goingAway = false) (htype : frame.type = HEADERS) :
    Refilled c frame result.1 := by
  have hopened : Grants c (c.openStream frame.streamId) (ReceiveLedger.hear ·
      (.opened frame.streamId)) := Appends.event rfl fun _ => trivial
  rcases collected_idle hcollected hgoing with hidle | hdead
  · refine ⟨_, hopened.trans hidle.grants, ?_⟩
    intro ledger h _
    have htake : ledger.take frame = ledger := by
      simp [ReceiveLedger.take, htype]
    rw [htake]
    exact (h.open frame.streamId).idle hidle
  · exact ⟨_, hopened.trans hdead, fun _ _ hdead => by cases hdead⟩

theorem headers_refilled {c : Http2Connection} {frame : Frame}
    {result : Http2Connection × Option Nat} (htaken : HeadersTaken c frame result)
    (hgoing : c.goingAway = false) (htype : frame.type = HEADERS) :
    Refilled c frame result.1 := by
  have hdata : frame.type ≠ DATA := by
    rw [htype]
    decide
  have hgoaway : frame.type ≠ GOAWAY := by
    rw [htype]
    decide
  cases htaken with
  | streamZero hid => exact fail_refilled c frame _ _ hgoing
  | short hid hpriority hshort => exact fail_refilled c frame _ _ hgoing
  | invalid hid hlookup hserver hold => exact fail_refilled c frame _ _ hgoing
  | known hid object hlookup result hcollected =>
      rcases collected_idle hcollected hgoing with hidle | hdead
      · exact hidle.refilled hdata hgoaway
      · exact refilled_of_dead hdead
  | refused hid hlookup hserver hnew hfull =>
      have hraised := counters_idle c c.sendWindow c.peerInitialWindow c.decoder
        c.encoderCapacity c.peerMaxFrame c.peerMaxConcurrent frame.streamId c.nextStreamId
        c.settingsAcked c.driven c.pendingHeaders c.ready c.feeding
      exact (hraised.trans (reset_idle _ _ _)).refilled hdata hgoaway
  | fresh hid hlookup hserver hnew hroom result hcollected =>
      have hraised := counters_idle c c.sendWindow c.peerInitialWindow c.decoder
        c.encoderCapacity c.peerMaxFrame c.peerMaxConcurrent frame.streamId c.nextStreamId
        c.settingsAcked c.driven c.pendingHeaders c.ready c.feeding
      obtain ⟨g, hgrants, hkeep⟩ := opened_refilled hcollected hgoing htype
      exact ⟨g, hgrants, fun ledger h => hkeep ledger (h.idle hraised)⟩
  | response hid hlookup hclient result hcollected =>
      exact opened_refilled hcollected hgoing htype

theorem continuation_refilled {c : Http2Connection} {frame : Frame}
    {result : Http2Connection × Option Nat} (htaken : ContinuationTaken c frame result)
    (hgoing : c.goingAway = false) (htype : frame.type = CONTINUATION) :
    Refilled c frame result.1 := by
  cases htaken with
  | unexpected hother => exact fail_refilled c frame _ _ hgoing
  | more object hpending hid result hcollected =>
      rcases collected_idle hcollected hgoing with hidle | hdead
      · exact hidle.refilled (by rw [htype]; decide) (by rw [htype]; decide)
      · exact refilled_of_dead hdead

theorem data_refilled {c : Http2Connection} {frame : Frame}
    {result : Http2Connection × Option Nat} (htaken : DataTaken c frame result)
    (hgoing : c.goingAway = false) (htype : frame.type = DATA)
    (hlength : frame.payload.length ≤ maxFrameSize) : Refilled c frame result.1 := by
  have htake : frame.streamId ≠ 0 → ∀ ledger : ReceiveLedger, ledger.take frame =
      { ledger.moveWindow frame.streamId (-frame.payload.length) with
        conn := ledger.conn - frame.payload.length } := by
    intro hid ledger
    simp [ReceiveLedger.take, htype, hid]
  have hcount := consume_still c frame.payload.length
  obtain ⟨granted, hgrants, hconsume⟩ := consume_refilled c frame.payload.length hlength
  cases htaken with
  | streamZero hid => exact fail_refilled c frame _ _ hgoing
  | unknown hid hlookup =>
      have hreset := reset_idle (c.consume frame.payload.length) frame.streamId STREAM_CLOSED
      refine ⟨_, hgrants.trans hreset.grants, ?_⟩
      intro ledger h _
      rw [htake hid]
      have hcounted := (hconsume ledger h).moveAbsent frame.streamId (-frame.payload.length)
        (hcount.streams ▸ ne_of_lookup hlookup)
      exact hcounted.idle hreset
  | large hid object hlookup hlong =>
      have hrefuse := refuseBody_idle ((c.consume frame.payload.length).received object
        frame.payload) object
      refine ⟨_, (hgrants.trans (Appends.same rfl)).trans hrefuse.grants, ?_⟩
      intro ledger h _
      rw [htake hid]
      have hin := lookup_mem hlookup
      refine (hconsume ledger h).drop object frame.streamId (-frame.payload.length) _
        (hcount.streams ▸ hin) hrefuse ?_
      intro entry he heq
      have hname : (((c.consume frame.payload.length).received object frame.payload).objects
          object).id = frame.streamId := by
        unfold received
        rw [modify_objects, hcount.id]
        exact (h.named _ hin).1
      have hkept := (List.mem_filter.mp he).2
      simp [hname, heq] at hkept
  | kept hid object hlookup hfits =>
      obtain ⟨more, hmore, hrefill⟩ := refill_refilled (c.consume frame.payload.length) object
        frame.payload hlength
      have hend := markEnded_idle (((c.consume frame.payload.length).received object
        frame.payload).refill object) object (frame.hasFlag FLAG_END_STREAM)
      refine ⟨_, (hgrants.trans hmore).trans hend.grants, ?_⟩
      intro ledger h _
      rw [htake hid]
      have hin := lookup_mem hlookup
      have hname : ((c.consume frame.payload.length).objects object).id = frame.streamId :=
        (hcount.id object).trans (h.named _ hin).1
      rw [hname] at hrefill ⊢
      have hcounted := (hrefill _ (hconsume ledger h) (hcount.streams ▸ hin)).idle hend
      have hledger : { ledger with conn := ledger.conn - frame.payload.length + granted }.moveWindow
          frame.streamId (-frame.payload.length + more) =
          (({ ledger.moveWindow frame.streamId (-frame.payload.length) with
            conn := ledger.conn - frame.payload.length }.grant 0 granted).grant frame.streamId
              more) := by
        simp [ReceiveLedger.grant, ReceiveLedger.moveWindow, hid, Int.add_assoc]
      rw [hledger] at hcounted
      exact hcounted

theorem process_refilled (c : Http2Connection) (frame : Frame) (hgoing : c.goingAway = false)
    (hlength : frame.payload.length ≤ maxFrameSize) : Refilled c frame (c.process frame).1 := by
  have h := process_processed c frame
  generalize c.process frame = result at h
  cases h with
  | interrupted hpending htype => exact fail_refilled c frame _ _ hgoing
  | headers hpending htype result htaken => exact headers_refilled htaken hgoing htype
  | continuation htype result htaken => exact continuation_refilled htaken hgoing htype
  | data hpending htype result htaken => exact data_refilled htaken hgoing htype hlength
  | settings hpending htype =>
      have hdata : frame.type ≠ DATA := by
        rw [htype]
        decide
      have hgoaway : frame.type ≠ GOAWAY := by
        rw [htype]
        decide
      unfold onSettings
      split
      · have hacked := counters_idle c c.sendWindow c.peerInitialWindow c.decoder
          c.encoderCapacity c.peerMaxFrame c.peerMaxConcurrent c.lastStreamId c.nextStreamId
          true c.driven c.pendingHeaders c.ready c.feeding
        exact hacked.refilled hdata hgoaway
      · split
        · exact fail_refilled c frame _ _ hgoing
        · rename_i values hvalues
          split
          · rename_i d happly
            have hidle := applySettings_idle values happly
            refine (hidle.trans (note_idle d (.wrote ⟨SETTINGS, FLAG_ACK, 0, []⟩) ?_)).refilled
              hdata hgoaway
            exact fun _ => rfl
          · rename_i d happly
            exact refilled_of_dead (applySettings_grants values hgoing happly)
  | windowUpdate hpending htype =>
      have hdata : frame.type ≠ DATA := by
        rw [htype]
        decide
      have hgoaway : frame.type ≠ GOAWAY := by
        rw [htype]
        decide
      unfold onWindowUpdate
      split
      · exact fail_refilled c frame _ _ hgoing
      · simp only
        split
        · split
          · exact fail_refilled c frame _ _ hgoing
          · exact (reset_idle c _ _).refilled hdata hgoaway
        · split
          · have hmoved := counters_idle c
              (c.sendWindow + ((readU32 frame.payload 0 &&& 2147483647 : Nat) : Int))
              c.peerInitialWindow c.decoder c.encoderCapacity c.peerMaxFrame c.peerMaxConcurrent
              c.lastStreamId c.nextStreamId c.settingsAcked c.driven c.pendingHeaders c.ready
              c.feeding
            exact hmoved.refilled hdata hgoaway
          · split
            · exact (Idle.refl c).refilled hdata hgoaway
            · exact (modify_idle c _ _ rfl rfl).refilled hdata hgoaway
  | ping hpending htype =>
      have hdata : frame.type ≠ DATA := by
        rw [htype]
        decide
      have hgoaway : frame.type ≠ GOAWAY := by
        rw [htype]
        decide
      unfold onPing
      split
      · exact fail_refilled c frame _ _ hgoing
      · split
        · exact (Idle.refl c).refilled hdata hgoaway
        · exact (write_idle c _ _ _ _ (by decide) (by decide) (by decide)).refilled hdata hgoaway
  | resetStream hpending htype =>
      exact (remove_idle c _).refilled (by rw [htype]; decide) (by rw [htype]; decide)
  | goaway hpending htype =>
      refine ⟨id, .same rfl, ?_⟩
      intro ledger h _
      have htake : ledger.take frame = { ledger with leaving := true } := by
        simp [ReceiveLedger.take, htype]
      rw [id, htake]
      exact ⟨⟨h.conn, h.low, h.streams⟩, rfl, h.initial, h.named, h.keys⟩
  | pushPromise hpending htype => exact fail_refilled c frame _ _ hgoing
  | priority hpending htype hsize =>
      exact (reset_idle c _ _).refilled (by rw [htype]; decide) (by rw [htype]; decide)
  | ignored hpending hheaders hcontinuation hdata hsettings hwindow hreset hgoaway =>
      exact (Idle.refl c).refilled hdata hgoaway

end Zuri.Http.H2
