import Zuri.Http.H2.SendSettings

/-!
Frames and steps. Every frame keeps the windows where they were granted; every piece of
a body is taken out of windows that cover it.
-/

namespace Zuri.Http.H2

open Frames Http2Connection Transition

structure Comes (isServer : Bool) (maxBodySize : Nat) (ledger : SendLedger)
    (writing : Option Nat) (result : Http2Connection × Option Nat) : Prop where
  sending : Sending isServer maxBodySize ledger ⟨result.1, writing⟩
  completed : ∀ object, result.2 = some object → isServer = true →
    ((result.1.objects object).id, object) ∈ result.1.streams ∧
      ledger.ended (result.1.objects object).id = true ∧
        object ∉ Session.sending ⟨result.1, writing⟩ ∧ object ∉ result.1.feeding

theorem Sending.comes {isServer : Bool} {maxBodySize : Nat} {ledger : SendLedger}
    {c : Http2Connection} {writing : Option Nat}
    (h : Sending isServer maxBodySize ledger ⟨c, writing⟩) :
    Comes isServer maxBodySize ledger writing (c, none) :=
  ⟨h, fun _ ho => by cases ho⟩

/-- The log grows in a way that does not depend on the ledger; and where the peer grants
what it does, the windows are kept unless the connection is given up. -/
def Handled (c : Http2Connection) (frame : Frame) (result : Http2Connection × Option Nat) :
    Prop :=
  ∃ g, Emits c result.1 g ∧
    ∀ (isServer : Bool) (maxBodySize : Nat) (ledger : SendLedger) (busy : List Nat)
      (writing : Option Nat), Sending isServer maxBodySize ledger ⟨c, writing⟩ →
      (∀ object ∈ Session.sending ⟨c, writing⟩, (c.objects object).id ∈ busy) →
      Granting isServer maxBodySize ledger busy frame →
      (g (ledger.take frame)).dead = false →
        Comes isServer maxBodySize (g (ledger.take frame)) writing result

theorem handled_of_dead {c : Http2Connection} {frame : Frame}
    {result : Http2Connection × Option Nat}
    (h : Emits c result.1 fun ledger => { ledger with dead := true }) :
    Handled c frame result :=
  ⟨_, h, fun _ _ _ _ _ _ _ _ hdead => by cases hdead⟩

theorem fail_handled (c : Http2Connection) (frame : Frame) (errorCode : Nat) (message : String)
    (hgoing : c.goingAway = false) : Handled c frame (c.fail errorCode message, none) :=
  handled_of_dead (emits_fail c errorCode message hgoing)

theorem take_header (ledger : SendLedger) (frame : Frame)
    (htype : frame.type = HEADERS ∨ frame.type = CONTINUATION) :
    ledger.take frame = ledger.markEnded frame := by
  unfold SendLedger.take
  rcases htype with htype | htype
  all_goals simp [htype]

theorem markEnded_openWindow (ledger : SendLedger) (frame : Frame) (id : Nat) :
    (ledger.markEnded frame).openWindow id = (ledger.openWindow id).markEnded frame := by
  unfold SendLedger.markEnded
  split <;> rfl

/-- Nothing is sent on a stream that has not ended. -/
theorem Sending.idle_of_open {isServer : Bool} {maxBodySize : Nat} {ledger : SendLedger}
    {c : Http2Connection} {writing : Option Nat}
    (h : Sending isServer maxBodySize ledger ⟨c, writing⟩) (hs : isServer = true) {id object : Nat}
    (hname : (c.objects object).id = id) (hended : ledger.ended id = false) :
    object ∉ Session.sending ⟨c, writing⟩ ∧ object ∉ c.feeding := by
  constructor
  · intro hsending
    have hbefore := (h.sending object hsending).2 hs
    simp only at hbefore
    rw [hname, hended] at hbefore
    cases hbefore
  · intro hfeeding
    have hbefore := (h.parked hs object hfeeding).ended
    simp only at hbefore
    rw [hname, hended] at hbefore
    cases hbefore

theorem collected_sends {c : Http2Connection} {object : Nat} {payload : List UInt8}
    {frame : Frame} {result : Http2Connection × Option Nat}
    (hcollected : Collected c object payload frame result) (hgoing : c.goingAway = false)
    (htype : frame.type = HEADERS ∨ frame.type = CONTINUATION) :
    ∃ g, Emits c result.1 g ∧
      ∀ (isServer : Bool) (maxBodySize : Nat) (ledger : SendLedger) (writing : Option Nat),
        Sending isServer maxBodySize ledger ⟨c, writing⟩ →
        (isServer = true → (frame.streamId, object) ∈ c.streams ∧
          ledger.ended frame.streamId = false) →
        (g (ledger.markEnded frame)).dead = false →
          Comes isServer maxBodySize (g (ledger.markEnded frame)) writing result := by
  have hdata : frame.type ≠ DATA := by
    rcases htype with htype | htype
    all_goals
      rw [htype]
      decide
  have hfragment : Still c (c.withFragment object (c.gathered object payload)) :=
    modify_still c object _ rfl rfl rfl
  cases hcollected with
  | large hlong =>
      have hfail := (Appends.same rfl).trans (emits_fail
        (c.withFragment object (c.gathered object payload)) ENHANCE_YOUR_CALM
          "the header block is too large" hgoing)
      exact ⟨_, hfail, fun _ _ _ _ _ _ hdead => by cases hdead⟩
  | garbled hlong hends e hdecode =>
      have hnote := emits_note { c.withFragment object (c.gathered object payload) with
        pendingHeaders := none } (.undecoded e) fun _ => trivial
      have hfail := hnote.trans (emits_fail ({ c.withFragment object (c.gathered object payload)
        with pendingHeaders := none }.note (.undecoded e)) COMPRESSION_ERROR e hgoing)
      exact ⟨_, hfail, fun _ _ _ _ _ _ hdead => by cases hdead⟩
  | part hlong hends =>
      refine ⟨id, .same rfl, ?_⟩
      intro isServer maxBodySize ledger writing h hopen _
      have hmore : SendLedger.endsStream frame = false := by
        simp [SendLedger.endsStream, hends, hdata]
      have hmark : ledger.markEnded frame = ledger := by
        simp [SendLedger.markEnded, hmore]
      rw [hmark]
      refine ((h.still hfragment).withPending (some object) ?_).comes
      intro _ hs other ho
      cases ho
      have hname := (h.named _ (hopen hs).1).1
      simp only at hname
      rw [hfragment.id, hname]
      exact hopen hs
  | whole hlong hends decoded decoder hdecode =>
      have hnote := emits_note { c.withFragment object (c.gathered object payload) with
        pendingHeaders := none, decoder := decoder } (.decoded decoded) fun _ => trivial
      refine ⟨id, ?_, ?_⟩
      · exact (Appends.same rfl).trans (hnote.trans (Appends.same rfl))
      intro isServer maxBodySize ledger writing h hopen _
      have hclosed := (h.still hfragment).withPending none (fun _ _ _ ho => by cases ho)
      have hstore : Still { c.withFragment object (c.gathered object payload) with
          pendingHeaders := none } (({ c.withFragment object (c.gathered object payload) with
            pendingHeaders := none, decoder := decoder }.note (.decoded decoded)).modify object
              (storeFields decoded (frame.hasFlag FLAG_END_STREAM))) := by
        refine ((counters_still _ _ _ _ _ _ _ decoder).trans (note_still _ _)).trans
          (modify_still _ object _ ?_ ?_ ?_)
        all_goals
          unfold storeFields
          simp only
          split <;> split <;> rfl
      have hkept := (hclosed.still hstore).marked frame (.inl rfl)
      refine ⟨hkept, ?_⟩
      intro other ho hs
      obtain ⟨hin, hended⟩ := hopen hs
      split at ho
      · rename_i hend
        cases ho
        have hids := (hfragment.id object).trans (h.named _ hin).1
        have hname := (hstore.id object).trans hids
        have hmarked : (ledger.markEnded frame).ended frame.streamId = true := by
          have hends : SendLedger.endsStream frame = true := by
            rcases htype with htype | htype
            all_goals simp [SendLedger.endsStream, hend, hends, htype]
          simp [SendLedger.markEnded, hends]
        simp only at hname
        rw [hname]
        exact ⟨hin, hmarked, h.idle_of_open hs (h.named _ hin).1 hended⟩
      · cases ho

theorem headers_handled {c : Http2Connection} {frame : Frame}
    {result : Http2Connection × Option Nat} (htaken : HeadersTaken c frame result)
    (hgoing : c.goingAway = false) (hpending : c.pendingHeaders = none)
    (htype : frame.type = HEADERS) : Handled c frame result := by
  have htake := fun ledger => take_header ledger frame (.inl htype)
  have hclosed : ∀ (id : Nat) (object : Nat), c.pendingHeaders = some object →
      (c.objects object).id ≠ id := fun _ _ ho => absurd (hpending.symm.trans ho) (by simp)
  cases htaken with
  | streamZero hid => exact fail_handled c frame _ _ hgoing
  | short hid hpriority hshort => exact fail_handled c frame _ _ hgoing
  | invalid hid hlookup hserver hold => exact fail_handled c frame _ _ hgoing
  | known hid object hlookup result hcollected =>
      obtain ⟨g, hemits, hsends⟩ := collected_sends hcollected hgoing (.inl htype)
      refine ⟨g, hemits, ?_⟩
      intro isServer maxBodySize ledger busy writing h _ hgranting hdead
      rw [htake] at hdead ⊢
      refine hsends isServer maxBodySize ledger writing h ?_ hdead
      intro hs
      refine ⟨lookup_mem hlookup, ?_⟩
      cases hended : ledger.ended frame.streamId with
      | false => rfl
      | true => exact absurd htype (hgranting.once hs hended).1
  | refused hid hlookup hserver hnew hfull =>
      refine ⟨_, (Appends.same rfl).trans (emits_reset { c with lastStreamId := frame.streamId }
        frame.streamId REFUSED_STREAM), ?_⟩
      intro isServer maxBodySize ledger busy writing h _ _ _
      rw [htake]
      have hlast : c.lastStreamId ≤ frame.streamId := by omega
      have hraised : Sending isServer maxBodySize (ledger.markEnded frame)
          ⟨{ c with lastStreamId := frame.streamId }, writing⟩ := by
        have hmarked := h.marked frame (.inl hpending)
        exact
          { hmarked with
            kept := ⟨hmarked.kept.initial, hmarked.kept.conn, hmarked.kept.streams,
              hmarked.kept.bounded⟩
            parked := fun hs object ho =>
              have hparked := hmarked.parked hs object ho
              ⟨hparked.ended, hparked.waits, hparked.known, Nat.le_trans hparked.last hlast,
                hparked.only⟩
            last := fun hs entry he => Nat.le_trans (hmarked.last hs entry he) hlast }
      exact (hraised.reset frame.streamId REFUSED_STREAM
        (h.free_of_absent (ne_of_lookup hlookup)) (fun _ _ => hclosed _)).comes
  | fresh hid hlookup hserver hnew hroom result hcollected =>
      obtain ⟨g, hemits, hsends⟩ := collected_sends hcollected hgoing (.inl htype)
      have hopened := emits_note { { c with lastStreamId := frame.streamId }.remove frame.streamId
        with
          objects := Function.update c.objects c.nextObject
            { id := frame.streamId, sendWindow := c.peerInitialWindow }
          nextObject := c.nextObject + 1
          streams := (c.remove frame.streamId).streams ++ [(frame.streamId, c.nextObject)] }
        (.opened frame.streamId) fun _ => trivial
      refine ⟨_, ((Appends.same rfl).trans hopened).trans hemits, ?_⟩
      intro isServer maxBodySize ledger busy writing h _ hgranting hdead
      rw [htake] at hdead ⊢
      have hopen := h.open frame.streamId frame.streamId
        (h.free_of_absent (ne_of_lookup hlookup)) (fun _ => ⟨by omega, rfl⟩)
      have hcommute : SendLedger.hear (ledger.markEnded frame) (.opened frame.streamId) =
          (ledger.openWindow frame.streamId).markEnded frame :=
        markEnded_openWindow ledger frame frame.streamId
      simp only [Function.comp, id] at hdead ⊢
      rw [hcommute] at hdead ⊢
      refine hsends isServer maxBodySize _ writing hopen ?_ hdead
      intro hs
      refine ⟨List.mem_append_right _ (List.mem_singleton_self _), ?_⟩
      cases hended : ledger.ended frame.streamId with
      | false => exact hended
      | true => exact absurd htype (hgranting.once hs hended).1
  | response hid hlookup hclient result hcollected =>
      obtain ⟨g, hemits, hsends⟩ := collected_sends hcollected hgoing (.inl htype)
      have hopened := emits_note { c.remove frame.streamId with
          objects := Function.update c.objects c.nextObject
            { id := frame.streamId, sendWindow := c.peerInitialWindow }
          nextObject := c.nextObject + 1
          streams := (c.remove frame.streamId).streams ++ [(frame.streamId, c.nextObject)] }
        (.opened frame.streamId) fun _ => trivial
      refine ⟨_, ((Appends.same rfl).trans hopened).trans hemits, ?_⟩
      intro isServer maxBodySize ledger busy writing h _ hgranting hdead
      rw [htake] at hdead ⊢
      have hrole : isServer = false := h.role.symm.trans hclient
      have hopen := h.open frame.streamId c.lastStreamId
        (h.free_of_absent (ne_of_lookup hlookup)) (fun hs => by
          rw [hrole] at hs
          cases hs)
      have hcommute : SendLedger.hear (ledger.markEnded frame) (.opened frame.streamId) =
          (ledger.openWindow frame.streamId).markEnded frame :=
        markEnded_openWindow ledger frame frame.streamId
      simp only [Function.comp, id] at hdead ⊢
      rw [hcommute] at hdead ⊢
      refine hsends isServer maxBodySize _ writing hopen ?_ hdead
      intro hs
      rw [hrole] at hs
      cases hs

theorem continuation_handled {c : Http2Connection} {frame : Frame}
    {result : Http2Connection × Option Nat} (htaken : ContinuationTaken c frame result)
    (hgoing : c.goingAway = false) (htype : frame.type = CONTINUATION) :
    Handled c frame result := by
  cases htaken with
  | unexpected hother => exact fail_handled c frame _ _ hgoing
  | more object hpending hid result hcollected =>
      obtain ⟨g, hemits, hsends⟩ := collected_sends hcollected hgoing (.inr htype)
      refine ⟨g, hemits, ?_⟩
      intro isServer maxBodySize ledger busy writing h _ hgranting hdead
      rw [take_header ledger frame (.inr htype)] at hdead ⊢
      refine hsends isServer maxBodySize ledger writing h ?_ hdead
      intro hs
      rw [← hid]
      exact h.pending (h.going.symm.trans hgoing) hs object hpending

theorem refuseBody_emits (c : Http2Connection) (object : Nat) :
    Emits c (c.refuseBody object) (SendLedger.closeWindow · (c.objects object).id) := by
  unfold refuseBody
  exact (emits_writeHeaders c _ _ _).trans (emits_reset _ _ _)

theorem received_sameStreams (c : Http2Connection) (object : Nat) (payload : List UInt8) :
    SameStreams c (c.received object payload) :=
  modify_sameStreams c object _ rfl

theorem refill_still (c : Http2Connection) (object : Nat) : Still c (c.refill object) := by
  unfold refill
  split
  · exact (grant_still _ _ _).trans (modify_still _ object _ rfl rfl rfl)
  · exact .refl _

theorem emits_refill (c : Http2Connection) (object : Nat) : Emits c (c.refill object) id := by
  unfold refill
  split
  · exact (emits_grant _ _ _).trans (Appends.same rfl)
  · exact Appends.same rfl

theorem markEnded_still (c : Http2Connection) (object : Nat) (ends : Bool) :
    Still c (c.markEnded object ends) := by
  unfold markEnded
  split
  · exact modify_still _ object _ rfl rfl rfl
  · exact .refl _

theorem markEnded_log (c : Http2Connection) (object : Nat) (ends : Bool) :
    (c.markEnded object ends).log = c.log := by
  unfold markEnded
  split <;> rfl

theorem data_handled {c : Http2Connection} {frame : Frame}
    {result : Http2Connection × Option Nat} (htaken : DataTaken c frame result)
    (hgoing : c.goingAway = false) (hpending : c.pendingHeaders = none)
    (htype : frame.type = DATA) : Handled c frame result := by
  have htake : ∀ ledger : SendLedger, ledger.take frame =
      (ledger.addBody frame.streamId frame.payload.length).markEnded frame := by
    intro ledger
    simp [SendLedger.take, htype]
  have hconsume := consume_still c frame.payload.length
  have hclosed : ∀ (id : Nat) (object : Nat),
      (c.consume frame.payload.length).pendingHeaders = some object →
        ((c.consume frame.payload.length).objects object).id ≠ id :=
    fun _ _ ho => absurd ((hconsume.pendingHeaders.trans hpending).symm.trans ho) (by simp)
  cases htaken with
  | streamZero hid => exact fail_handled c frame _ _ hgoing
  | unknown hid hlookup =>
      refine ⟨_, (emits_consume c frame.payload.length).trans (emits_reset _ frame.streamId
        STREAM_CLOSED), ?_⟩
      intro isServer maxBodySize ledger busy writing h _ _ _
      rw [htake]
      have habsent := ne_of_lookup hlookup
      have hbody := (h.bodyAbsent frame.streamId frame.payload.length habsent).marked frame
        (.inl hpending)
      have hkept := hbody.still hconsume
      refine (hkept.reset frame.streamId STREAM_CLOSED ?_ (fun _ _ => hclosed _)).comes
      exact hkept.free_of_absent (hconsume.streams ▸ habsent)
  | large hid object hlookup hlong =>
      have hname : (((c.consume frame.payload.length).received object frame.payload).objects
          object).id = (c.objects object).id := by
        unfold received
        rw [modify_objects, hconsume.id]
      have hdata : (((c.consume frame.payload.length).received object frame.payload).objects
          object).data = (c.objects object).data ++ frame.payload := by
        unfold received
        rw [modify_objects, hconsume.data]
      refine ⟨_, ((emits_consume c frame.payload.length).trans (Appends.same rfl)).trans
        (refuseBody_emits _ object), ?_⟩
      intro isServer maxBodySize ledger busy writing h hbusy hgranting _
      have hin := lookup_mem hlookup
      have hid' : (c.objects object).id = frame.streamId := (h.named _ hin).1
      have hlen := h.bodies (h.going.symm.trans hgoing) _ hin
      have hmax := h.maxBody
      simp only at hlen hmax
      rw [hdata, hmax, List.length_append, hlen] at hlong
      have hfree : frame.streamId ∉ busy := by
        intro hmem
        have hkept := hgranting.kept hmem
        simp [closes, htype, hlong] at hkept
      have hbody := (h.still hconsume).body object frame.streamId frame.payload
        (hconsume.streams ▸ hin)
      have hmarked := hbody.marked frame (.inl (hconsume.pendingHeaders.trans hpending))
      have hheaders := hmarked.still (writeHeaders_still _
        (((c.consume frame.payload.length).received object frame.payload).objects object).id
        (encodeBlock [(":status".toList, "413".toList), ("content-length".toList, ['0'])]) true)
      have hsame := (hconsume.toSameStreams.trans (received_sameStreams _ object
        frame.payload)).trans (writeHeaders_still ((c.consume frame.payload.length).received object frame.payload)
          (((c.consume frame.payload.length).received object frame.payload).objects object).id
          (encodeBlock [(":status".toList, "413".toList), ("content-length".toList, ['0'])])
          true).toSameStreams
      rw [htake]
      refine (hheaders.reset _ NO_ERROR ?_ ?_).comes
      · intro other ho
        rw [hsame.sending] at ho
        rw [hsame.id, hname, hid']
        intro heq
        exact hfree (heq ▸ hbusy other ho)
      · intro _ _ other ho
        exact absurd (hpending.symm.trans (hsame.pendingHeaders.symm.trans ho)) (by simp)
  | kept hid object hlookup hfits =>
      have hrefill := refill_still ((c.consume frame.payload.length).received object frame.payload)
        object
      have hend := markEnded_still (((c.consume frame.payload.length).received object
        frame.payload).refill object) object (frame.hasFlag FLAG_END_STREAM)
      have hemits := ((emits_consume c frame.payload.length).trans (Appends.same rfl)).trans
        ((emits_refill ((c.consume frame.payload.length).received object frame.payload)
          object).trans (Appends.same (markEnded_log _ object (frame.hasFlag FLAG_END_STREAM))))
      refine ⟨id, hemits, ?_⟩
      intro isServer maxBodySize ledger busy writing h _ hgranting _
      have hin := lookup_mem hlookup
      have hbody := (h.still hconsume).body object frame.streamId frame.payload
        (hconsume.streams ▸ hin)
      have hmarked := hbody.marked frame (.inl (hconsume.pendingHeaders.trans hpending))
      rw [id, htake]
      have hkept := (hmarked.still hrefill).still hend
      refine ⟨hkept, ?_⟩
      intro other ho hs
      have hsame := (hconsume.toSameStreams.trans (received_sameStreams _ object
        frame.payload)).trans (hrefill.toSameStreams.trans hend.toSameStreams)
      have hname : (c.objects object).id = frame.streamId := (h.named _ hin).1
      split at ho
      · rename_i hflag
        cases ho
        have hmark : ((ledger.addBody frame.streamId frame.payload.length).markEnded frame).ended
            frame.streamId = true := by
          have hends : SendLedger.endsStream frame = true := by
            simp [SendLedger.endsStream, hflag, htype]
          simp [SendLedger.markEnded, hends]
        have hended : ledger.ended frame.streamId = false := by
          cases hended : ledger.ended frame.streamId with
          | false => rfl
          | true => exact absurd htype (hgranting.once hs hended).2.2
        obtain ⟨hidle, hwaits⟩ := h.idle_of_open hs hname hended
        simp only
        rw [hsame.sending, hsame.feeding, hsame.id, hsame.streams, hname]
        exact ⟨hin, hmark, hidle, hwaits⟩
      · cases ho

theorem settings_handled (c : Http2Connection) (frame : Frame) (hgoing : c.goingAway = false)
    (htype : frame.type = SETTINGS) : Handled c frame (c.onSettings frame, none) := by
  unfold onSettings
  split
  · rename_i hack
    refine ⟨id, .same rfl, ?_⟩
    intro isServer maxBodySize ledger busy writing h _ _ _
    have htake : ledger.take frame = ledger := by
      simp [SendLedger.take, htype, hack]
    rw [id, htake]
    exact (h.still (counters_still c _ _ _ _ true _ _)).comes
  · rename_i hack
    split
    · exact fail_handled c frame _ _ hgoing
    · rename_i values hvalues
      split
      · rename_i d happly
        refine ⟨_, (Appends.same (applySettings_log values happly)).trans
          (emits_neutral d SETTINGS FLAG_ACK 0 [] (by decide) (by decide) (by decide)), ?_⟩
        intro isServer maxBodySize ledger busy writing h _ hgranting _
        have hentries : values = decodeEntries frame.payload [] := by
          unfold decodeSettings at hvalues
          split at hvalues
          · cases hvalues
          · cases hvalues
            rfl
        obtain ⟨hkeys, hsettings⟩ := decodeEntries_settings frame.payload [] List.nodup_nil
        have hsetting := hsettings SETTINGS_INITIAL_WINDOW_SIZE
        rw [← hentries] at hkeys hsetting
        obtain ⟨hshifts, hnone, hsome⟩ := applySettings_true values h.objects_nodup hkeys happly
        simp only [Function.comp, id]
        cases hlast : settingOf SETTINGS_INITIAL_WINDOW_SIZE frame.payload with
        | none =>
            have htake : ledger.take frame = ledger := by
              simp [SendLedger.take, htype, hack, hlast]
            rw [htake]
            rw [hlast] at hsetting
            exact ((h.unshifted hshifts (hnone hsetting)).still (note_still _ _)).comes
        | some value =>
            rw [hlast] at hsetting
            obtain ⟨hinitial, hfits⟩ := hsome value hsetting
            have htake : ledger.take frame = ledger.shift d.peerInitialWindow := by
              have hle : (value : Int) ≤ maxWindow := by
                unfold maxWindow
                omega
              simp [SendLedger.take, htype, hack, hlast, hle, hinitial]
            have hbounded := hgranting.bounded
            rw [htake] at hbounded ⊢
            exact ((h.shifted hshifts hbounded).still (note_still _ _)).comes
      · rename_i d happly
        exact handled_of_dead (applySettings_false values hgoing happly)

theorem closeWindow_moveWindow (ledger : SendLedger) (id : Nat) (amount : Int) :
    (ledger.moveWindow id amount).closeWindow id = ledger.closeWindow id := by
  simp [SendLedger.moveWindow, SendLedger.closeWindow]

theorem free_of_closes {c : Http2Connection} {writing : Option Nat} {isServer : Bool}
    {maxBodySize : Nat} {ledger : SendLedger} {busy : List Nat} {frame : Frame}
    (hbusy : ∀ object ∈ Session.sending ⟨c, writing⟩, (c.objects object).id ∈ busy)
    (hgranting : Granting isServer maxBodySize ledger busy frame)
    (hcloses : closes maxBodySize ledger frame = true) :
    ∀ object ∈ Session.sending ⟨c, writing⟩, (c.objects object).id ≠ frame.streamId := by
  intro object ho heq
  have hkept := hgranting.kept (heq ▸ hbusy object ho)
  rw [hcloses] at hkept
  cases hkept

theorem windowUpdate_handled (c : Http2Connection) (frame : Frame) (hgoing : c.goingAway = false)
    (hpending : c.pendingHeaders = none) (htype : frame.type = WINDOW_UPDATE) :
    Handled c frame (c.onWindowUpdate frame, none) := by
  have hclosed : ∀ (object : Nat), c.pendingHeaders = some object →
      (c.objects object).id ≠ frame.streamId :=
    fun _ ho => absurd (hpending.symm.trans ho) (by simp)
  have htake : ∀ ledger : SendLedger, ledger.take frame =
      if frame.streamId = 0 then { ledger with conn := ledger.conn + SendLedger.incrementOf frame }
      else ledger.moveWindow frame.streamId (SendLedger.incrementOf frame) := by
    intro ledger
    simp [SendLedger.take, htype]
  unfold onWindowUpdate
  split
  · exact fail_handled c frame _ _ hgoing
  · rename_i hsize
    have hincrement : SendLedger.incrementOf frame =
        (readU32 frame.payload 0 &&& 2147483647) := by
      simp [SendLedger.incrementOf, not_not.mp hsize]
    rw [← hincrement]
    simp only
    split
    · rename_i hzero
      split
      · exact fail_handled c frame _ _ hgoing
      · rename_i hid
        refine ⟨_, emits_reset c frame.streamId PROTOCOL_ERROR, ?_⟩
        intro isServer maxBodySize ledger busy writing h hbusy hgranting _
        rw [htake, if_neg hid, closeWindow_moveWindow]
        exact (h.reset frame.streamId PROTOCOL_ERROR
          (free_of_closes hbusy hgranting (by simp [closes, htype, hzero]))
          (fun _ _ => hclosed)).comes
    · split
      · rename_i hid
        refine ⟨id, .same rfl, ?_⟩
        intro isServer maxBodySize ledger busy writing h _ hgranting _
        have hbounded := hgranting.bounded.conn
        rw [htake, if_pos hid] at hbounded
        rw [id, htake, if_pos hid]
        exact (h.moveConn _ hbounded).comes
      · rename_i hid
        split
        · rename_i hlookup
          refine ⟨id, .same rfl, ?_⟩
          intro isServer maxBodySize ledger busy writing h _ hgranting _
          have hbounded := hgranting.bounded
          rw [htake, if_neg hid] at hbounded
          rw [id, htake, if_neg hid]
          exact (h.moveAbsent frame.streamId _ (ne_of_lookup hlookup) hbounded).comes
        · rename_i object hlookup
          refine ⟨id, .same rfl, ?_⟩
          intro isServer maxBodySize ledger busy writing h _ hgranting _
          have hbounded := hgranting.bounded
          rw [htake, if_neg hid] at hbounded
          rw [id, htake, if_neg hid]
          exact (h.moveStream object frame.streamId _ (lookup_mem hlookup) hbounded).comes

theorem take_neutral (ledger : SendLedger) (frame : Frame) (hheaders : frame.type ≠ HEADERS)
    (hcontinuation : frame.type ≠ CONTINUATION) (hdata : frame.type ≠ DATA)
    (hsettings : frame.type ≠ SETTINGS) (hwindow : frame.type ≠ WINDOW_UPDATE)
    (hreset : frame.type ≠ RST_STREAM) (hgoaway : frame.type ≠ GOAWAY) :
    ledger.take frame = ledger := by
  have hends : SendLedger.endsStream frame = false := by
    simp [SendLedger.endsStream, hdata, hheaders, hcontinuation]
  simp [SendLedger.take, SendLedger.markEnded, hends, hdata, hsettings, hwindow, hreset, hgoaway]

theorem process_handled (c : Http2Connection) (frame : Frame) (hgoing : c.goingAway = false) :
    Handled c frame (c.process frame) := by
  have h := process_processed c frame
  generalize c.process frame = result at h
  have hclosed : c.pendingHeaders = none → ∀ (object : Nat), c.pendingHeaders = some object →
      (c.objects object).id ≠ frame.streamId :=
    fun hpending _ ho => absurd (hpending.symm.trans ho) (by simp)
  cases h with
  | interrupted hpending htype => exact fail_handled c frame _ _ hgoing
  | headers hpending htype result htaken => exact headers_handled htaken hgoing hpending htype
  | continuation htype result htaken => exact continuation_handled htaken hgoing htype
  | data hpending htype result htaken => exact data_handled htaken hgoing hpending htype
  | settings hpending htype => exact settings_handled c frame hgoing htype
  | windowUpdate hpending htype => exact windowUpdate_handled c frame hgoing hpending htype
  | ping hpending htype =>
      have htake := fun ledger => take_neutral ledger frame (by rw [htype]; decide)
        (by rw [htype]; decide) (by rw [htype]; decide) (by rw [htype]; decide)
        (by rw [htype]; decide) (by rw [htype]; decide) (by rw [htype]; decide)
      unfold onPing
      split
      · exact fail_handled c frame _ _ hgoing
      · split
        · refine ⟨id, Appends.same rfl, ?_⟩
          intro isServer maxBodySize ledger busy writing h _ _ _
          rw [id, htake]
          exact h.comes
        · refine ⟨id, emits_neutral c _ _ _ _ (by decide) (by decide) (by decide), ?_⟩
          intro isServer maxBodySize ledger busy writing h _ _ _
          rw [id, htake]
          exact (h.still (note_still _ _)).comes
  | resetStream hpending htype =>
      refine ⟨id, .same rfl, ?_⟩
      intro isServer maxBodySize ledger busy writing h hbusy hgranting _
      have htake : ledger.take frame = ledger.closeWindow frame.streamId := by
        simp [SendLedger.take, htype]
      rw [id, htake]
      exact (h.drop frame.streamId (free_of_closes hbusy hgranting (by simp [closes, htype]))
        (fun _ _ => hclosed hpending)).2.comes
  | goaway hpending htype =>
      refine ⟨id, .same rfl, ?_⟩
      intro isServer maxBodySize ledger busy writing h _ _ _
      have htake : ledger.take frame = { ledger with leaving := true } := by
        simp [SendLedger.take, htype]
      rw [id, htake]
      apply Sending.comes
      exact
        { h with
          going := rfl
          kept := ⟨h.kept.initial, h.kept.conn, h.kept.streams, h.kept.bounded.initial,
            h.kept.bounded.conn, h.kept.bounded.window⟩
          bodies := fun hl => by cases hl
          pending := fun hl => by cases hl
          parked := fun hs object ho =>
            have hparked := h.parked hs object ho
            ⟨hparked.ended, hparked.waits, hparked.known, hparked.last, hparked.only⟩ }
  | pushPromise hpending htype => exact fail_handled c frame _ _ hgoing
  | priority hpending htype hsize =>
      refine ⟨_, emits_reset c frame.streamId FRAME_SIZE_ERROR, ?_⟩
      intro isServer maxBodySize ledger busy writing h hbusy hgranting _
      rw [take_neutral ledger frame (by rw [htype]; decide)
        (by rw [htype]; decide) (by rw [htype]; decide) (by rw [htype]; decide)
        (by rw [htype]; decide) (by rw [htype]; decide) (by rw [htype]; decide)]
      exact (h.reset frame.streamId FRAME_SIZE_ERROR
        (free_of_closes hbusy hgranting (by simp [closes, htype, hsize]))
        (fun _ _ => hclosed hpending)).comes
  | ignored hpending hheaders hcontinuation hdata hsettings hwindow hreset hgoaway =>
      refine ⟨id, Appends.same rfl, ?_⟩
      intro isServer maxBodySize ledger busy writing h _ _ _
      rw [id, take_neutral ledger frame hheaders hcontinuation hdata hsettings hwindow hreset
        hgoaway]
      exact h.comes

def SendingInv (isServer : Bool) (maxBodySize : Nat) (ledger : SendLedger) (s : Session) : Prop :=
  ledger.dead = false → Sending isServer maxBodySize ledger s

abbrev SendCarries (isServer : Bool) (maxBodySize : Nat) : Session → Session → Prop :=
  Carries (fun s => s.conn.log) (GrantingEvent isServer maxBodySize) Covered SendLedger.hear
    (SendingInv isServer maxBodySize)

theorem hear_dead (ledger : SendLedger) (event : Event) (h : ledger.dead = true) :
    (ledger.hear event).dead = true := by
  cases event with
  | opened id => exact h
  | read held busy wire =>
      cases hread : readFrame maxFrameSize wire with
      | error e =>
          simp only [SendLedger.hear, hread]
          exact h
      | ok frame =>
          simp only [SendLedger.hear, hread, SendLedger.take, SendLedger.markEnded]
          split
          · split
            · exact h
            · split
              · split <;> exact h
              · exact h
          · split
            · split <;> exact h
            · split
              · exact h
              · split
                · exact h
                · split
                  · split <;> exact h
                  · split <;> exact h
  | wrote frame =>
      simp only [SendLedger.hear, SendLedger.send]
      split
      · exact h
      · split
        · exact h
        · split
          · rfl
          · exact h
  | malformed _ | decoded _ | undecoded _ | handed _ _ _ _ => exact h

theorem replay_dead (events : List Event) (ledger : SendLedger) (h : ledger.dead = true) :
    (events.foldl SendLedger.hear ledger).dead = true := by
  induction events generalizing ledger with
  | nil => exact h
  | cons event events ih => exact ih _ (hear_dead ledger event h)

theorem alive_before {events : List Event} {ledger : SendLedger}
    (h : (events.foldl SendLedger.hear ledger).dead = false) : ledger.dead = false := by
  cases hdead : ledger.dead with
  | false => rfl
  | true =>
      rw [replay_dead events ledger hdead] at h
      cases h

section Steps

variable {isServer : Bool} {maxBodySize : Nat}

theorem emits_carries {s t : Session} {g : SendLedger → SendLedger} (h : Emits s.conn t.conn g)
    (hkeep : ∀ ledger, Sending isServer maxBodySize ledger s → (g ledger).dead = false →
      Sending isServer maxBodySize (g ledger) t) : SendCarries isServer maxBodySize s t := by
  obtain ⟨events, hlog, hg, hcovered⟩ := h
  refine ⟨events, hlog, ?_⟩
  intro ledger hinv _
  refine ⟨?_, along_of_forall _ _ _ hcovered⟩
  intro halive
  have hbefore := alive_before halive
  rw [hg] at halive ⊢
  exact hkeep ledger (hinv hbefore) halive

theorem carries_of_log {s t : Session} (hlog : t.conn.log = s.conn.log)
    (hkeep : ∀ ledger, Sending isServer maxBodySize ledger s →
      Sending isServer maxBodySize ledger t) : SendCarries isServer maxBodySize s t :=
  emits_carries (Appends.same hlog) fun ledger h _ => hkeep ledger h

theorem Still.carries {c d : Http2Connection} {writing : Option Nat} (h : Still c d)
    (hemits : Emits c d id) : SendCarries isServer maxBodySize ⟨c, writing⟩ ⟨d, writing⟩ :=
  emits_carries hemits fun _ hsending _ => hsending.still h

theorem process_sendCarries {c d : Http2Connection} (busy : List Nat) {wire frame : Frame}
    {writing : Option Nat} (hread : readFrame maxFrameSize wire = .ok frame)
    (hgoing : c.goingAway = false)
    (hbusy : ∀ object ∈ Session.sending ⟨c, writing⟩, c.isServer = isServer → object ∈ busy)
    (hlog : d.log = ((c.noteRead busy wire).process frame).1.log)
    (hqueue : ∀ ledger, Comes isServer maxBodySize ledger writing
      ((c.noteRead busy wire).process frame) → Sending isServer maxBodySize ledger ⟨d, writing⟩) :
    SendCarries isServer maxBodySize ⟨c, writing⟩ ⟨d, writing⟩ := by
  obtain ⟨g, ⟨events, hevents, hg, hcovered⟩, hkeep⟩ :=
    process_handled (c.noteRead busy wire) frame hgoing
  refine ⟨.read c.streams.length (c.idsOf busy) wire :: events, ?_, ?_⟩
  · simp only
    rw [hlog, hevents]
    exact List.append_assoc _ _ _
  · intro ledger hinv halong
    refine ⟨?_, trivial, along_of_forall _ _ _ hcovered⟩
    intro halive
    have hbefore := alive_before halive
    have hsending := hinv hbefore
    have hgranting := halong.1 hbefore frame hread
    have hhear : ledger.hear (.read c.streams.length (c.idsOf busy) wire) = ledger.take frame := by
      simp only [SendLedger.hear, hread]
    rw [List.foldl_cons, hhear, hg] at halive ⊢
    apply hqueue
    refine hkeep isServer maxBodySize ledger (c.idsOf busy) writing
      (hsending.still (note_still _ _)) ?_ hgranting halive
    intro object ho
    exact List.mem_map_of_mem (hbusy object ho hsending.role)

theorem receive_sendCarries (s : Session) {wire frame : Frame}
    (hread : readFrame maxFrameSize wire = .ok frame) (hgoing : s.conn.goingAway = false) :
    SendCarries isServer maxBodySize s ⟨s.conn.receive s.busy wire frame, s.writing⟩ := by
  obtain ⟨c, writing⟩ := s
  refine process_sendCarries (Session.busy ⟨c, writing⟩) hread hgoing ?_ ?_ ?_
  · intro object ho hrole
    rcases List.mem_append.mp ho with ho | ho
    · exact List.mem_append_left _ ho
    · split at ho
      · exact List.mem_append_right _ ho
      · cases ho
  · unfold receive
    simp only
    split <;> rfl
  · intro ledger hcomes
    unfold receive
    simp only
    split
    · exact hcomes.sending
    · rename_i object hcompleted
      exact hcomes.sending.push object (hcomes.completed object hcompleted)

/-- A frame that is dropped once the peer goes away moves no window. -/
theorem Sending.late {ledger : SendLedger} {c : Http2Connection} {writing : Option Nat}
    (h : Sending isServer maxBodySize ledger ⟨c, writing⟩) (hleaving : ledger.leaving = true)
    {busy : List Nat} {frame : Frame} (hgranting : Granting isServer maxBodySize ledger busy frame) :
    Sending isServer maxBodySize (ledger.take frame) ⟨c, writing⟩ := by
  have hmoves := hgranting.staying hleaving
  have hmono : ∀ (other : SendLedger), other.leaving = true → other.initial = ledger.initial →
      other.conn = ledger.conn → other.window = ledger.window →
      (∀ id, ledger.ended id = true → other.ended id = true) →
      Sending isServer maxBodySize other ⟨c, writing⟩ := by
    intro other hl hinitial hconn hwindow hended
    exact
      { h with
        going := (h.going.trans hleaving).trans hl.symm
        kept :=
          { initial := h.kept.initial.trans hinitial.symm
            conn := h.kept.conn.trans hconn.symm
            streams := by
              rw [hwindow]
              exact h.kept.streams
            bounded := ⟨hinitial ▸ h.kept.bounded.initial, hconn ▸ h.kept.bounded.conn,
              hwindow ▸ h.kept.bounded.window⟩ }
        bodies := fun hstay => absurd (hl.symm.trans hstay) (by decide)
        pending := fun hstay => absurd (hl.symm.trans hstay) (by decide)
        sending := fun object ho =>
          ⟨(h.sending object ho).1, fun hs => hended _ ((h.sending object ho).2 hs)⟩
        parked := fun hs object ho => (h.parked hs object ho).mono hended }
  have hmark : ∀ id, ledger.ended id = true →
      (Function.update ledger.ended frame.streamId true) id = true := by
    intro id hid
    by_cases hsame : id = frame.streamId
    · rw [hsame, Function.update_self]
    · rw [Function.update_of_ne hsame, hid]
  have hsettings : frame.type ≠ SETTINGS := by
    intro htype
    simp [movesWindow, htype] at hmoves
  have hwindow : frame.type ≠ WINDOW_UPDATE := by
    intro htype
    simp [movesWindow, htype] at hmoves
  have hreset : frame.type ≠ RST_STREAM := by
    intro htype
    simp [movesWindow, htype] at hmoves
  unfold SendLedger.take
  rw [if_neg hsettings, if_neg hwindow, if_neg hreset]
  split
  · exact hmono _ rfl rfl rfl rfl fun _ hid => hid
  · unfold SendLedger.markEnded
    split
    · split
      · exact hmono _ hleaving rfl rfl rfl hmark
      · exact hmono _ hleaving rfl rfl rfl fun _ hid => hid
    · split
      · exact hmono _ hleaving rfl rfl rfl hmark
      · exact h

theorem send_empty (ledger : SendLedger) (flags id : Nat) :
    ledger.send ⟨DATA, flags, id, []⟩ = ledger := by
  have hwindow : Function.update ledger.window id ((ledger.window id).map fun w => w + -0) =
      ledger.window := by
    rw [Function.update_eq_self_iff]
    cases ledger.window id <;> simp
  simp [SendLedger.send, SendLedger.moveWindow]

/-- A piece that fits the windows is covered, and taken out of them. -/
theorem Sending.piece {ledger : SendLedger} {c : Http2Connection} {writing : Option Nat}
    (h : Sending isServer maxBodySize ledger ⟨c, writing⟩) (object : Nat) (piece : List UInt8)
    (last : Bool) (hin : ((c.objects object).id, object) ∈ c.streams)
    (hfits : (piece.length : Int) ≤ c.writable object) :
    Covered ledger (.wrote ⟨DATA, if last then FLAG_END_STREAM else 0, (c.objects object).id,
        piece⟩) ∧
      Sending isServer maxBodySize
        (ledger.send ⟨DATA, if last then FLAG_END_STREAM else 0, (c.objects object).id, piece⟩)
        ⟨c.sendPiece object piece last, writing⟩ := by
  have hwindow := h.kept.streams _ hin
  have hconn := h.kept.conn
  simp only at hwindow hconn
  unfold writable at hfits
  refine ⟨?_, ?_⟩
  · intro _ _ _
    simp only
    rw [hwindow]
    exact ⟨by omega, _, rfl, by omega⟩
  · have hwrite := h.still (note_still c (.wrote ⟨DATA, if last then FLAG_END_STREAM else 0,
      (c.objects object).id, piece⟩))
    have hstream := hwrite.moveStream object (c.objects object).id (-piece.length) hin
      { initial := h.kept.bounded.initial
        conn := h.kept.bounded.conn
        window := by
          intro id w hw
          by_cases hid : id = (c.objects object).id
          · have hbound := h.kept.bounded.window _ _ hwindow
            simp [SendLedger.moveWindow, hid, hwindow] at hw
            omega
          · simp only [SendLedger.moveWindow, Function.update_of_ne hid] at hw
            exact h.kept.bounded.window id w hw }
    have hbound := h.kept.bounded.conn
    exact hstream.moveConn (-piece.length) (by simp only [SendLedger.moveWindow]; omega)

/-- The queue gets shorter, or its first request is taken out to be answered. -/
theorem Sending.queues {ledger : SendLedger} {c : Http2Connection} {writing : Option Nat}
    (h : Sending isServer maxBodySize ledger ⟨c, writing⟩) (ready : List Nat) (next : Option Nat)
    (hsending : (Session.sending ⟨{ c with ready := ready }, next⟩).Sublist
      (Session.sending ⟨c, writing⟩))
    (hready : ready ⊆ c.ready) :
    Sending isServer maxBodySize ledger ⟨{ c with ready := ready }, next⟩ :=
  { h with
    kept := ⟨h.kept.initial, h.kept.conn, h.kept.streams, h.kept.bounded⟩
    sending := fun object ho => h.sending object (hsending.subset ho)
    once := hsending.nodup h.once
    parked := fun hs object ho =>
      have hparked := h.parked hs object ho
      ⟨hparked.ended, fun hin => hparked.waits (hready hin), hparked.known, hparked.last,
        hparked.only⟩ }

/-- Of two objects something is sent on, neither has the name of the other. -/
theorem Sending.names_ne {ledger : SendLedger} {c : Http2Connection} {writing : Option Nat}
    (h : Sending isServer maxBodySize ledger ⟨c, writing⟩) {object other : Nat}
    (ho : object ∈ Session.sending ⟨c, writing⟩) (hother : other ∈ Session.sending ⟨c, writing⟩)
    (hne : other ≠ object) : (c.objects other).id ≠ (c.objects object).id := by
  intro heq
  have hin := (h.sending other hother).1
  simp only at hin
  rw [heq] at hin
  exact hne (h.same_object hin (h.sending object ho).1)

/-- The stream something is sent on is not the one whose header block is open. -/
theorem Sending.pending_ne {ledger : SendLedger} {c : Http2Connection} {writing : Option Nat}
    (h : Sending isServer maxBodySize ledger ⟨c, writing⟩) {id : Nat}
    (hended : isServer = true → ledger.ended id = true) :
    ledger.leaving = false → isServer = true → ∀ object, c.pendingHeaders = some object →
      (c.objects object).id ≠ id := by
  intro hl hs object ho heq
  have hopen := (h.pending hl hs object ho).2
  simp only at hopen
  rw [heq, hended hs] at hopen
  cases hopen

/-- The response of a stream is over, and its stream leaves the table. -/
theorem Sending.release {ledger : SendLedger} {c : Http2Connection} {object : Nat}
    (h : Sending isServer maxBodySize ledger ⟨c, some object⟩) :
    Sending isServer maxBodySize ledger ⟨c.remove (c.objects object).id, none⟩ ∧
      Sending isServer maxBodySize (ledger.closeWindow (c.objects object).id)
        ⟨c.remove (c.objects object).id, none⟩ := by
  have hmem : object ∈ Session.sending ⟨c, some object⟩ := List.mem_cons_self
  have hrest := h.queues c.ready none (List.sublist_cons_self _ _) (List.Subset.refl _)
  apply hrest.drop
  · intro other ho
    have hnodup := h.once
    have hfresh : object ∉ Session.sending ⟨c, none⟩ := (List.nodup_cons.mp hnodup).1
    exact h.names_ne hmem (List.mem_cons_of_mem _ ho) fun heq => hfresh (heq ▸ ho)
  · exact h.pending_ne (h.sending object hmem).2

/-- A parked body is that of a stream in the table if one of its name is there. -/
theorem Sending.parked_mem {ledger : SendLedger} {c : Http2Connection} {writing : Option Nat}
    (h : Sending isServer maxBodySize ledger ⟨c, writing⟩) (hs : isServer = true) {object : Nat}
    (hfeeding : object ∈ c.feeding) (hopen : (c.lookup (c.objects object).id).isSome = true) :
    ((c.objects object).id, object) ∈ c.streams := by
  obtain ⟨other, hlookup⟩ := Option.isSome_iff_exists.mp hopen
  have hin := lookup_mem hlookup
  have heq := (h.parked hs object hfeeding).only _ hin rfl
  simp only at heq
  rw [heq] at hin
  exact hin

theorem feed_still (c : Http2Connection) (object : Nat) (feed : Option Feed) :
    Still c (c.modify object fun stream => { stream with feed := feed }) :=
  modify_still c object _ rfl rfl rfl

theorem piece_sendCarries {c d : Http2Connection} {writing : Option Nat} {object : Nat}
    {piece : List UInt8} {last : Bool}
    (hlog : d.log = c.log) (hname : (d.objects object).id = (c.objects object).id)
    (hkeep : ∀ ledger, Sending isServer maxBodySize ledger ⟨c, writing⟩ →
      Sending isServer maxBodySize ledger ⟨d, writing⟩ ∧
        ((d.objects object).id, object) ∈ d.streams)
    (hfits : (piece.length : Int) ≤ d.writable object) :
    SendCarries isServer maxBodySize ⟨c, writing⟩ ⟨d.sendPiece object piece last, writing⟩ := by
  refine ⟨[.wrote ⟨DATA, if last then FLAG_END_STREAM else 0, (c.objects object).id, piece⟩], ?_, ?_⟩
  · simp only [sendPiece, write, note, Http2Connection.modify, hlog, hname]
  · intro ledger hinv _
    refine ⟨?_, ?_, trivial⟩
    · intro halive
      have hbefore := alive_before halive
      obtain ⟨hd, hin⟩ := hkeep ledger (hinv hbefore)
      have hpiece := (hd.piece object piece last hin hfits).2
      rw [hname] at hpiece
      exact hpiece
    · intro hbefore
      obtain ⟨hd, hin⟩ := hkeep ledger (hinv hbefore)
      have hcovered := (hd.piece object piece last hin hfits).1
      rw [hname] at hcovered
      exact hcovered hbefore

theorem finish_emits (c : Http2Connection) (object : Nat) : Emits c (c.finishData object) id := by
  refine ⟨[.wrote ⟨DATA, FLAG_END_STREAM, (c.objects object).id, []⟩], rfl, ?_, ?_⟩
  · intro ledger
    exact send_empty ledger _ _
  · intro event he ledger
    cases List.mem_singleton.mp he
    intro _ _ hne
    exact absurd rfl hne

theorem observe_sendCarries (c : Http2Connection) (wire frame : Frame)
    (hread : readFrame maxFrameSize wire = .ok frame) (hgoing : c.goingAway = false)
    (hclient : c.isServer = false) : SendCarries isServer maxBodySize ⟨c, none⟩
      ⟨((c.noteRead c.ready wire).process frame).1, none⟩ := by
  refine process_sendCarries c.ready hread hgoing ?_ rfl fun _ hcomes => hcomes.sending
  intro object ho _
  rw [Session.sending, hclient] at ho
  cases ho

theorem forget_sendCarries (c : Http2Connection) (id : Nat) (hclient : c.isServer = false) :
    SendCarries isServer maxBodySize ⟨c, none⟩ ⟨c.remove id, none⟩ := by
  refine carries_of_log rfl fun ledger hsending => ?_
  have hrole : isServer = false := hsending.role.symm.trans hclient
  refine (hsending.drop id ?_ ?_).1
  · intro object ho
    rw [Session.sending, hclient] at ho
    cases ho
  · intro _ hs
    rw [hrole] at hs
    cases hs

/-- What comes after the connection is leaving changes nothing that is sent. -/
theorem late_sendCarries (c : Http2Connection) (wire : Frame) (hgoing : c.goingAway = true) :
    SendCarries isServer maxBodySize ⟨c, none⟩ ⟨c.noteRead c.ready wire, none⟩ := by
  refine ⟨[.read c.streams.length (c.idsOf c.ready) wire], rfl, ?_⟩
  intro ledger hinv halong
  refine ⟨?_, trivial, trivial⟩
  intro halive
  have hbefore := alive_before halive
  have hsending := hinv hbefore
  have hleaving : ledger.leaving = true := hsending.going.symm.trans hgoing
  cases hread : readFrame maxFrameSize wire with
  | error e =>
      have hhear : ledger.hear (.read c.streams.length (c.idsOf c.ready) wire) = ledger := by
        simp only [SendLedger.hear, hread]
      rw [List.foldl_cons, List.foldl_nil, hhear]
      exact hsending.still (note_still _ _)
  | ok frame =>
      have hhear : ledger.hear (.read c.streams.length (c.idsOf c.ready) wire) =
          ledger.take frame := by
        simp only [SendLedger.hear, hread]
      rw [List.foldl_cons, List.foldl_nil, hhear]
      exact (hsending.still (note_still _ _)).late hleaving (halong.1 hbefore frame hread)

theorem fail_sendCarries (c : Http2Connection) (wire : Frame) (message : String) :
    SendCarries isServer maxBodySize ⟨c, none⟩
      ⟨(c.note (.malformed wire)).fail PROTOCOL_ERROR message, none⟩ := by
  have hnote := emits_note c (.malformed wire) fun _ => trivial
  cases hgoing : c.goingAway with
  | false =>
      have hfail := emits_fail (c.note (.malformed wire)) PROTOCOL_ERROR message hgoing
      exact emits_carries (hnote.trans hfail) fun _ _ hdead => by cases hdead
  | true =>
      have hsame : (c.note (.malformed wire)).fail PROTOCOL_ERROR message =
          c.note (.malformed wire) := by
        unfold Http2Connection.fail goAway
        exact if_pos hgoing
      rw [hsame]
      exact (note_still c (.malformed wire)).carries hnote

theorem request_sendCarries (c : Http2Connection) (hclient : c.isServer = false) :
    SendCarries isServer maxBodySize ⟨c, none⟩
      ⟨{ c.openStream c.nextStreamId with nextStreamId := c.nextStreamId + 2 },
        some c.nextObject⟩ := by
  refine emits_carries ((Appends.same rfl).trans (emits_note { c.remove c.nextStreamId with
      objects := Function.update c.objects c.nextObject
        { id := c.nextStreamId, sendWindow := c.peerInitialWindow }
      nextObject := c.nextObject + 1
      streams := (c.remove c.nextStreamId).streams ++ [(c.nextStreamId, c.nextObject)] }
    (.opened c.nextStreamId) fun _ => trivial)) fun ledger hsending _ => ?_
  have hrole : isServer = false := hsending.role.symm.trans hclient
  have hopen := hsending.open c.nextStreamId c.lastStreamId (by
    intro object ho
    rw [Session.sending, hclient] at ho
    cases ho) (by
    intro hs
    rw [hrole] at hs
    cases hs)
  have hname : ((c.openStream c.nextStreamId).objects c.nextObject).id = c.nextStreamId := by
    simp [openStream, remove, note]
  have hsent : Session.sending ⟨{ c.openStream c.nextStreamId with
      nextStreamId := c.nextStreamId + 2 }, some c.nextObject⟩ = [c.nextObject] := by
    simp [Session.sending, openStream, remove, note, hclient]
  exact
    { hopen with
      kept := ⟨hopen.kept.initial, hopen.kept.conn, hopen.kept.streams, hopen.kept.bounded⟩
      sending := by
        intro object ho
        rw [hsent] at ho
        cases List.mem_singleton.mp ho
        refine ⟨?_, fun hs => by
          rw [hrole] at hs
          cases hs⟩
        simp only
        rw [hname]
        exact List.mem_append_right _ (List.mem_singleton_self _)
      once := by
        rw [hsent]
        exact List.nodup_singleton _
      parked := fun hs => by
        rw [hrole] at hs
        cases hs }

/-- A response that is parked goes on from where it stands. -/
theorem park_sendCarries (c : Http2Connection) (object : Nat) (feed : Feed)
    (hserver : c.isServer = true) :
    SendCarries isServer maxBodySize ⟨c, some object⟩ ⟨c.park object feed, some object⟩ := by
  refine carries_of_log rfl fun ledger hsending => ?_
  have hmem : object ∈ Session.sending ⟨c, some object⟩ := List.mem_cons_self
  obtain ⟨hin, hended⟩ := hsending.sending object hmem
  have hstill := feed_still c object (some feed)
  have hkept := hsending.still hstill
  have hfresh : object ∉ c.ready := by
    have hnodup := hsending.once
    rw [Session.sending, hserver] at hnodup
    exact (List.nodup_cons.mp hnodup).1
  exact
    { hkept with
      kept := ⟨hkept.kept.initial, hkept.kept.conn, hkept.kept.streams, hkept.kept.bounded⟩
      parked := by
        intro hs other ho
        rcases List.mem_append.mp ho with ho | ho
        · have hparked := hkept.parked hs other ho
          exact ⟨hparked.ended, hparked.waits, hparked.known, hparked.last, hparked.only⟩
        · cases List.mem_singleton.mp ho
          have hid := hstill.id object
          exact
            { ended := hid ▸ hended hs
              waits := hfresh
              known := (hsending.named _ hin).2
              last := hid ▸ hsending.last hs _ hin
              only := by
                intro entry he heq
                exact hsending.same_object he (heq ▸ hid ▸ hin) } }

theorem feedDone_sendCarries (c : Http2Connection) (object : Nat) (hserver : c.isServer = true)
    (hfeeding : object ∈ c.feeding) :
    SendCarries isServer maxBodySize ⟨c, none⟩ ⟨c.finishFeed object, none⟩ := by
  have hstill := feed_still c object none
  refine carries_of_log rfl fun ledger hsending => ?_
  have hs : isServer = true := hsending.role.symm.trans hserver
  have hparked := hsending.parked hs object hfeeding
  have hkept := hsending.still hstill
  refine (hkept.drop (c.objects object).id ?_ ?_).1
  · intro other ho heq
    rw [hstill.toSameStreams.sending] at ho
    rw [hstill.id] at heq
    have hin := (hsending.sending other ho).1
    have hsame := hparked.only _ hin heq
    simp only at hsame
    rw [hsame, Session.sending, hserver] at ho
    exact hparked.waits ho
  · exact hkept.pending_ne fun _ => hparked.ended

theorem Step.sendCarries {s t : Session} (h : Step s t) : SendCarries isServer maxBodySize s t := by
  cases h with
  | receive s wire frame hread hgoing => exact receive_sendCarries s hread hgoing
  | observe c wire frame hread hgoing hclient =>
      exact observe_sendCarries c wire frame hread hgoing hclient
  | forget c id hclient => exact forget_sendCarries c id hclient
  | malformed s wire =>
      exact (note_still s.conn (.malformed wire)).carries (emits_note s.conn _ fun _ => trivial)
  | late c wire hgoing => exact late_sendCarries c wire hgoing
  | fail c wire message => exact fail_sendCarries c wire message
  | hand c object ready request hready hrequest hserver =>
      refine emits_carries ((Appends.same rfl).trans (emits_note { c with ready := ready }
        (.handed _ _ _ _) fun _ => trivial)) fun ledger hsending _ => ?_
      have hqueue := hsending.queues ready (some object) (by
        simp [Session.sending, hserver, hready]) (by
        simp [hready])
      exact hqueue.still (note_still _ _)
  | reject c object ready message hready hrequest hserver =>
      refine emits_carries ((Appends.same rfl).trans (emits_reset { c with ready := ready }
        (c.objects object).id PROTOCOL_ERROR)) fun ledger hsending _ => ?_
      have hqueue := hsending.queues ready (some object) (by
        simp [Session.sending, hserver, hready]) (by
        simp [hready])
      exact hqueue.release.2.still (note_still _ _)
  | request c hclient => exact request_sendCarries c hclient
  | headers c object block endStream =>
      exact (writeHeaders_still _ _ _ _).carries (emits_writeHeaders _ _ _ _)
  | piece c object piece last hfits =>
      refine piece_sendCarries rfl rfl (fun ledger hsending => ⟨hsending, ?_⟩) hfits
      exact (hsending.sending object List.mem_cons_self).1
  | finish c object => exact (note_still _ _).carries (finish_emits c object)
  | park c object feed hserver => exact park_sendCarries c object feed hserver
  | abort c object =>
      refine emits_carries (emits_reset c _ _) fun ledger hsending _ => ?_
      exact hsending.release.2.still (note_still _ _)
  | release c object hserver =>
      split
      · exact carries_of_log rfl fun ledger hsending => hsending.release.1
      · refine carries_of_log rfl fun ledger hsending => ?_
        exact hsending.queues c.ready none (List.sublist_cons_self _ _) (List.Subset.refl _)
  | leave c object hclient =>
      refine carries_of_log rfl fun ledger hsending => ?_
      exact hsending.queues c.ready none (List.sublist_cons_self _ _) (List.Subset.refl _)
  | feedPiece c object piece left hserver hfeeding hopen hfits =>
      have hstill := feed_still c object (some left)
      refine piece_sendCarries rfl (hstill.id object) (fun ledger hsending => ?_) ?_
      · refine ⟨hsending.still hstill, ?_⟩
        rw [hstill.id]
        exact hsending.parked_mem (hsending.role.symm.trans hserver) hfeeding hopen
      · unfold writable at hfits ⊢
        rw [hstill.window]
        exact hfits
  | feedEnd c object left hserver hfeeding hopen =>
      have hstill := feed_still c object (some left)
      exact (hstill.trans (note_still _ _)).carries ((Appends.same rfl).trans (finish_emits _ object))
  | feedDone c object hserver hfeeding => exact feedDone_sendCarries c object hserver hfeeding
  | unfeed c object => exact (feed_still c object none).carries (.same rfl)
  | waitingList c waiting hwaiting =>
      refine carries_of_log rfl fun ledger hsending => ?_
      exact
        { hsending with
          kept := ⟨hsending.kept.initial, hsending.kept.conn, hsending.kept.streams,
            hsending.kept.bounded⟩
          parked := fun hs object ho =>
            have hparked := hsending.parked hs object (hwaiting ho)
            ⟨hparked.ended, hparked.waits, hparked.known, hparked.last, hparked.only⟩ }
  | drive c => exact (counters_still c _ _ _ _ _ true _).carries (.same rfl)

end Steps

end Zuri.Http.H2
