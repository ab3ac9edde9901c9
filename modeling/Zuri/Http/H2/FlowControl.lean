import Zuri.Http.H2.ReceiveWindows

/-!
Flow control in both directions, along whole sessions: every piece of a body that goes
out is covered, the windows kept are the ones granted, and what comes in is counted and
granted again.
-/

namespace Zuri.Http.H2

open Frames Http2Connection Transition

def ReceivingInv (ledger : ReceiveLedger) (s : Session) : Prop :=
  ledger.dead = false → Receiving ledger s.conn

abbrev ReceiveCarries : Session → Session → Prop :=
  Carries (fun s => s.conn.log) PlainEvent (fun _ _ => True) ReceiveLedger.hear ReceivingInv

theorem ReceiveLedger.hear_dead (ledger : ReceiveLedger) (event : Event)
    (h : ledger.dead = true) : (ledger.hear event).dead = true := by
  cases event with
  | opened id => exact h
  | read held busy wire =>
      simp only [ReceiveLedger.hear, ReceiveLedger.take]
      split
      · split
        · exact h
        · split <;> exact h
      · exact h
  | wrote frame =>
      simp only [ReceiveLedger.hear, ReceiveLedger.send, ReceiveLedger.grant]
      split
      · split
        · exact h
        · split <;> exact h
      · split
        · split <;> exact h
        · split
          · rfl
          · exact h
  | malformed _ | decoded _ | undecoded _ | handed _ _ _ _ => exact h

theorem ReceiveLedger.alive_before {events : List Event} {ledger : ReceiveLedger}
    (h : (events.foldl ReceiveLedger.hear ledger).dead = false) : ledger.dead = false := by
  induction events generalizing ledger with
  | nil => exact h
  | cons event events ih =>
      have hnext := ih h
      cases hdead : ledger.dead with
      | false => rfl
      | true =>
          rw [ReceiveLedger.hear_dead ledger event hdead] at hnext
          cases hnext

theorem grants_carries {s t : Session} {g : ReceiveLedger → ReceiveLedger}
    (h : Grants s.conn t.conn g)
    (hkeep : ∀ ledger, Receiving ledger s.conn → (g ledger).dead = false →
      Receiving (g ledger) t.conn) : ReceiveCarries s t := by
  obtain ⟨events, hlog, hg, hkept⟩ := h
  refine ⟨events, hlog, ?_⟩
  intro ledger hinv _
  refine ⟨?_, along_of_forall _ _ _ hkept⟩
  intro halive
  have hbefore := ReceiveLedger.alive_before halive
  rw [hg] at halive ⊢
  exact hkeep ledger (hinv hbefore) halive

theorem Idle.carries {s t : Session} (h : Idle s.conn t.conn) : ReceiveCarries s t :=
  grants_carries h.grants fun _ hreceiving _ => hreceiving.idle h

theorem process_receiveCarries {s t : Session} (busy : List Nat) {wire frame : Frame}
    (hread : readFrame maxFrameSize wire = .ok frame) (hgoing : s.conn.goingAway = false)
    (hafter : Idle ((s.conn.noteRead busy wire).process frame).1 t.conn)
    (hlog : t.conn.log = ((s.conn.noteRead busy wire).process frame).1.log) :
    ReceiveCarries s t := by
  obtain ⟨hlength, htype, hid, hplain⟩ := readFrame_shape hread
  obtain ⟨g, ⟨events, hevents, hg, hkept⟩, hkeep⟩ :=
    process_refilled (s.conn.noteRead busy wire) frame hgoing hlength
  refine ⟨.read s.conn.streams.length (s.conn.idsOf busy) wire :: events, ?_, ?_⟩
  · simp only
    rw [hlog, hevents]
    exact List.append_assoc _ _ _
  · intro ledger hinv halong
    refine ⟨?_, trivial, along_of_forall _ _ _ hkept⟩
    intro halive
    have hbefore := ReceiveLedger.alive_before halive
    have hreceiving := hinv hbefore
    have htake : ledger.take wire = ledger.take frame := by
      by_cases hcounted : wire.type = DATA ∧ wire.streamId ≠ 0
      · rw [hplain (halong.1 hbefore hcounted.1 hcounted.2).1]
      · have hframe : ¬ (frame.type = DATA ∧ frame.streamId ≠ 0) := by
          rw [htype, hid]
          exact hcounted
        unfold ReceiveLedger.take
        rw [if_neg hcounted, if_neg hframe, ← htype]
    have hhear : ledger.hear (.read s.conn.streams.length (s.conn.idsOf busy) wire) =
        ledger.take frame := by
      simp only [ReceiveLedger.hear, hread]
      exact htake
    rw [List.foldl_cons, hhear, hg] at halive ⊢
    have hnoted : Receiving ledger (s.conn.noteRead busy wire) :=
      ⟨⟨hreceiving.conn, hreceiving.low, hreceiving.streams⟩, hreceiving.going,
        hreceiving.initial, hreceiving.named, hreceiving.keys⟩
    exact (hkeep ledger hnoted halive).idle hafter

theorem Step.receiveCarries {s t : Session} (h : Step s t) : ReceiveCarries s t := by
  have hqueues : ∀ (c : Http2Connection) (ready feeding : List Nat) (driven : Bool),
      Idle c { c with ready := ready, feeding := feeding, driven := driven } :=
    fun c ready feeding driven => counters_idle c _ _ _ _ _ _ _ _ _ driven _ ready feeding
  cases h with
  | receive s wire frame hread hgoing =>
      refine process_receiveCarries s.busy hread hgoing ?_ ?_
      · simp only
        unfold Http2Connection.receive
        simp only
        split
        · exact .refl _
        · exact hqueues _ _ _ _
      · simp only
        unfold Http2Connection.receive
        simp only
        split <;> rfl
  | observe c wire frame hread hgoing hclient =>
      exact process_receiveCarries (s := ⟨c, none⟩) c.ready hread hgoing (.refl _) rfl
  | forget c id hclient => exact (remove_idle c id).carries
  | malformed s wire => exact (note_idle s.conn (.malformed wire) fun _ => rfl).carries
  | late c wire hgoing =>
      refine ⟨[.read c.streams.length (c.idsOf c.ready) wire], rfl, ?_⟩
      intro ledger hinv halong
      refine ⟨?_, trivial, trivial⟩
      intro halive
      have hbefore := ReceiveLedger.alive_before halive
      have hreceiving := hinv hbefore
      have hleaving : ledger.leaving = true := hreceiving.going.symm.trans hgoing
      have hnoted : Receiving ledger (c.noteRead c.ready wire) :=
        ⟨⟨hreceiving.conn, hreceiving.low, hreceiving.streams⟩, hreceiving.going,
          hreceiving.initial, hreceiving.named, hreceiving.keys⟩
      have hsame : ledger.take wire = ledger := by
        have hplain := halong.1 hbefore
        unfold ReceiveLedger.take
        split
        · rename_i hcounted
          have hstaying := (hplain hcounted.1 hcounted.2).2
          rw [hleaving] at hstaying
          cases hstaying
        · split
          · rw [← hleaving]
          · rfl
      have hhear : ledger.hear (.read c.streams.length (c.idsOf c.ready) wire) = ledger := by
        simp only [ReceiveLedger.hear, hsame]
        split <;> rfl
      rw [List.foldl_cons, List.foldl_nil, hhear]
      exact hnoted
  | fail c wire message =>
      have hnote := note_idle c (.malformed wire) fun _ => rfl
      cases hgoing : c.goingAway with
      | false =>
          refine grants_carries (hnote.grants.trans (fail_grants (c.note (.malformed wire))
            PROTOCOL_ERROR message hgoing)) ?_
          intro _ _ hdead
          cases hdead
      | true =>
          have hsame : (c.note (.malformed wire)).fail PROTOCOL_ERROR message =
              c.note (.malformed wire) := by
            unfold Http2Connection.fail goAway
            exact if_pos hgoing
          rw [hsame]
          exact hnote.carries
  | hand c object ready request hready hrequest hserver =>
      exact ((hqueues c ready c.feeding c.driven).trans (note_idle _ (.handed _ _ _ _)
        fun _ => rfl)).carries
  | reject c object ready message hready hrequest hserver =>
      exact ((hqueues c ready c.feeding c.driven).trans (reset_idle _ _ _)).carries
  | request c hclient =>
      have hopened : Grants c { c.openStream c.nextStreamId with
          nextStreamId := c.nextStreamId + 2 } (ReceiveLedger.hear · (.opened c.nextStreamId)) :=
        Appends.event rfl fun _ => trivial
      refine grants_carries hopened ?_
      intro ledger hreceiving _
      have hopen := hreceiving.open c.nextStreamId
      exact ⟨⟨hopen.conn, hopen.low, hopen.streams⟩, hopen.going, hopen.initial, hopen.named,
        hopen.keys⟩
  | headers c object block endStream => exact (writeHeaders_idle c _ _ _).carries
  | piece c object piece last hfits => exact (sendPiece_idle c object piece last).carries
  | finish c object => exact (finishData_idle c object).carries
  | park c object feed hserver =>
      exact ((modify_idle c object _ rfl rfl).trans (hqueues _ _ _ _)).carries
  | abort c object => exact (reset_idle c _ _).carries
  | release c object hserver =>
      split
      · exact (remove_idle c _).carries
      · exact (Idle.refl c).carries
  | leave c object hclient => exact (Idle.refl c).carries
  | feedPiece c object piece left hserver hfeeding hopen hfits =>
      exact ((modify_idle c object _ rfl rfl).trans (sendPiece_idle _ object piece _)).carries
  | feedEnd c object left hserver hfeeding hopen =>
      exact ((modify_idle c object _ rfl rfl).trans (finishData_idle _ object)).carries
  | feedDone c object hserver hfeeding =>
      exact ((modify_idle c object _ rfl rfl).trans (remove_idle _ _)).carries
  | unfeed c object =>
      exact Idle.carries (modify_idle c object (fun stream => { stream with feed := none }) rfl rfl)
  | waitingList c waiting hwaiting => exact (hqueues c c.ready waiting c.driven).carries
  | drive c => exact (hqueues c c.ready c.feeding true).carries

/-- What flow control asks of a connection, as far as it is not given up: what went out
was covered, the windows it sends into are the ones granted, and what is missing from the
windows it granted is counted and less than what is refilled at once. -/
structure FlowControlled (c : Http2Connection) : Prop where
  covered : Along Covered SendLedger.hear {} c.log
  kept : (c.log.foldl SendLedger.hear {}).dead = false →
    WindowsKept (c.log.foldl SendLedger.hear {}) c
  refilled : (c.log.foldl ReceiveLedger.hear {}).dead = false →
    WindowsRefilled (c.log.foldl ReceiveLedger.hear {}) c

theorem start_sending (isServer : Bool) (maxBodySize : Nat) :
    SendingInv isServer maxBodySize ((start isServer maxBodySize).log.foldl SendLedger.hear {})
      ⟨start isServer maxBodySize, none⟩ := by
  intro _
  have hledger : (start isServer maxBodySize).log.foldl SendLedger.hear {} = {} := rfl
  have hsending : Session.sending ⟨start isServer maxBodySize, none⟩ = [] := by
    cases isServer <;> rfl
  rw [hledger]
  exact
    { role := rfl
      maxBody := rfl
      going := rfl
      kept :=
        { initial := rfl
          conn := rfl
          streams := by simp [start, sendSettings, write, note]
          bounded := ⟨by decide, by decide, fun _ _ h => by cases h⟩ }
      named := by simp [start, sendSettings, write, note]
      bodies := by simp [start, sendSettings, write, note]
      keys := List.nodup_nil
      pending := by simp [start, sendSettings, write, note]
      sending := by
        rw [hsending]
        simp
      once := by
        rw [hsending]
        exact List.nodup_nil
      parked := by simp [start, sendSettings, write, note]
      last := by simp [start, sendSettings, write, note] }

theorem start_receiving (isServer : Bool) (maxBodySize : Nat) :
    ReceivingInv ((start isServer maxBodySize).log.foldl ReceiveLedger.hear {})
      ⟨start isServer maxBodySize, none⟩ := by
  intro _
  have hledger : (start isServer maxBodySize).log.foldl ReceiveLedger.hear {} =
      { initial := initialWindow, conn := initialWindow } := by
    rfl
  rw [hledger]
  exact
    { conn := rfl
      low := by
        change 0 < windowRefillAt
        decide
      streams := by simp [start, sendSettings, write, note]
      going := rfl
      initial := rfl
      named := by simp [start, sendSettings, write, note]
      keys := List.nodup_nil }

theorem start_covered (isServer : Bool) (maxBodySize : Nat) :
    Along Covered SendLedger.hear {} (start isServer maxBodySize).log :=
  ⟨fun _ htype => absurd htype (by decide), fun _ htype => absurd htype (by decide), trivial⟩

/-- In every state of every session, if the peer grants within bounds, closes no stream
that is being answered and pads no DATA, flow control is kept in both directions. -/
theorem session_flowControlled (isServer : Bool) (maxBodySize : Nat) (s : Session)
    (hrun : Steps ⟨start isServer maxBodySize, none⟩ s)
    (hgranting : Along (GrantingEvent isServer maxBodySize) SendLedger.hear {} s.conn.log)
    (hplain : Along PlainEvent ReceiveLedger.hear {} s.conn.log) : FlowControlled s.conn := by
  have hsent := replay_run (fun _ _ => Step.sendCarries) hrun (start_sending isServer maxBodySize)
    (start_covered isServer maxBodySize) hgranting
  have hreceived := replay_run (fun _ _ => Step.receiveCarries) hrun
    (start_receiving isServer maxBodySize) (along_of_forall _ _ _ fun _ _ _ => trivial) hplain
  exact
    { covered := hsent.2
      kept := fun halive => (hsent.1 halive).kept
      refilled := fun halive => (hreceived.1 halive).toWindowsRefilled }

/-- What goes over the wire, and the streams that are opened. -/
def Event.traffic : Event → Bool
  | .opened _ | .read _ _ _ | .wrote _ => true
  | .malformed _ | .decoded _ | .undecoded _ | .handed _ _ _ _ => false

def requestBlock : List UInt8 :=
  encodeBlock [(":method".toList, "POST".toList), (":scheme".toList, "https".toList),
    (":path".toList, ['/']), (":authority".toList, ['a'])]

def greeting : List Event → HttpRequest → Response :=
  fun _ _ => ⟨200, [], [], .body [104, 105]⟩

/-- A server that reads a request with a body and answers it with one. -/
def exchange (data : Frame) : Http2Connection :=
  (run greeting [.take, .take] [⟨HEADERS, FLAG_END_HEADERS, 1, requestBlock⟩, data]
    (start true maxBody)).2

theorem session_flowControlled_exchange :
    FlowControlled (exchange ⟨DATA, FLAG_END_STREAM, 1, [104, 105]⟩) := by
  have htraffic : (exchange ⟨DATA, FLAG_END_STREAM, 1, [104, 105]⟩).log.filter Event.traffic =
      [.wrote ⟨SETTINGS, 0, 0, encodeSettings ownSettings⟩,
        .wrote ⟨WINDOW_UPDATE, 0, 0, writeU32 983041⟩,
        .read 0 [] ⟨HEADERS, FLAG_END_HEADERS, 1, requestBlock⟩, .opened 1,
        .read 1 [] ⟨DATA, FLAG_END_STREAM, 1, [104, 105]⟩,
        .wrote ⟨HEADERS, FLAG_END_HEADERS, 1, [136, 15, 13, 1, 50]⟩,
        .wrote ⟨DATA, FLAG_END_STREAM, 1, [104, 105]⟩] := by
    decide +kernel
  have hheaders : readFrame maxFrameSize ⟨HEADERS, FLAG_END_HEADERS, 1, requestBlock⟩ =
      .ok ⟨HEADERS, FLAG_END_HEADERS, 1, requestBlock⟩ := by
    rfl
  have hdata : readFrame maxFrameSize ⟨DATA, FLAG_END_STREAM, 1, [104, 105]⟩ =
      .ok ⟨DATA, FLAG_END_STREAM, 1, [104, 105]⟩ := by
    rfl
  have hbounded : ∀ ledger : SendLedger, ledger.initial = 65535 → ledger.conn = 65535 →
      (ledger.window = (fun _ => none) ∨
        ledger.window = Function.update (fun _ => none) 1 (some 65535)) → ledger.Bounded := by
    intro ledger hinitial hconn hwindow
    refine ⟨by rw [hinitial]; decide, by rw [hconn]; decide, ?_⟩
    intro id w hw
    rcases hwindow with hwindow | hwindow
    · rw [hwindow] at hw
      cases hw
    · rw [hwindow] at hw
      by_cases hid : id = 1
      · rw [hid, Function.update_self] at hw
        cases hw
        decide
      · rw [Function.update_of_ne hid] at hw
        cases hw
  apply session_flowControlled true maxBody ⟨_, none⟩ (run_steps greeting _ _ _)
  · apply along_filter Event.traffic
    · intro ledger event hsilent
      cases event with
      | opened _ | read _ _ _ | wrote _ => cases hsilent
      | malformed _ | decoded _ | undecoded _ | handed _ _ _ _ => exact ⟨rfl, trivial⟩
    · refine htraffic ▸ ⟨trivial, trivial, ?_, trivial, ?_, trivial, trivial, trivial⟩
      · intro _ frame hframe
        cases hheaders.symm.trans hframe
        refine ⟨hbounded _ rfl rfl (.inl rfl), ?_, ?_, ?_⟩
        · intro hbusy
          cases hbusy
        · intro _ hended
          cases hended
        · intro hleaving
          cases hleaving
      · intro _ frame hframe
        cases hdata.symm.trans hframe
        refine ⟨hbounded _ rfl rfl (.inr rfl), ?_, ?_, ?_⟩
        · intro hbusy
          cases hbusy
        · intro _ hended
          cases hended
        · intro hleaving
          cases hleaving
  · apply along_filter Event.traffic
    · intro ledger event hsilent
      cases event with
      | opened _ | read _ _ _ | wrote _ => cases hsilent
      | malformed _ | decoded _ | undecoded _ | handed _ _ _ _ => exact ⟨rfl, trivial⟩
    · refine htraffic ▸ ⟨trivial, trivial, ?_, trivial, ?_, trivial, trivial, trivial⟩
      · intro _ htype
        cases htype
      · intro _ _ _
        exact ⟨rfl, rfl⟩

/-- Padding that nobody counts is missing from the windows for good. -/
theorem session_paddingLost :
    (exchange ⟨DATA, FLAG_PADDED ||| FLAG_END_STREAM, 1, [2, 104, 105, 0, 0]⟩).goingAway = false ∧
      ¬ FlowControlled (exchange ⟨DATA, FLAG_PADDED ||| FLAG_END_STREAM, 1, [2, 104, 105, 0, 0]⟩) := by
  refine ⟨by decide +kernel, ?_⟩
  intro h
  have hconn := (h.refilled (by decide +kernel)).conn
  revert hconn
  decide +kernel

end Zuri.Http.H2
