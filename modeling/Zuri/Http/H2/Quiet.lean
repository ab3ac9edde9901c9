import Zuri.Http.H2.Connection

/-!
What the parts of a connection leave alone. Refusing, granting, resetting and writing
only write frames and move windows; they may take streams out of the table, and touch
neither the requests being read nor the compression state.
-/

namespace Zuri.Http.H2

open Frames

namespace Http2Connection

/-- Two states of a stream that differ in its windows alone. -/
structure SameStream (s t : Http2Stream) : Prop where
  id : t.id = s.id
  fields : t.fields = s.fields
  data : t.data = s.data
  ended : t.ended = s.ended
  headersDone : t.headersDone = s.headersDone
  trailers : t.trailers = s.trailers
  fragment : t.fragment = s.fragment
  feed : t.feed = s.feed

theorem SameStream.refl (s : Http2Stream) : SameStream s s :=
  ⟨rfl, rfl, rfl, rfl, rfl, rfl, rfl, rfl⟩

theorem SameStream.trans {s t u : Http2Stream} (h : SameStream s t) (k : SameStream t u) :
    SameStream s u where
  id := k.id.trans h.id
  fields := k.fields.trans h.fields
  data := k.data.trans h.data
  ended := k.ended.trans h.ended
  headersDone := k.headersDone.trans h.headersDone
  trailers := k.trailers.trans h.trailers
  fragment := k.fragment.trans h.fragment
  feed := k.feed.trans h.feed

/-- The second state comes out of the first by writing frames, moving windows and taking
streams out of the table. -/
structure Quiet (c d : Http2Connection) : Prop where
  isServer : d.isServer = c.isServer
  maxBodySize : d.maxBodySize = c.maxBodySize
  decoder : d.decoder = c.decoder
  pendingHeaders : d.pendingHeaders = c.pendingHeaders
  ready : d.ready = c.ready
  driven : d.driven = c.driven
  feeding : d.feeding = c.feeding
  nextObject : d.nextObject = c.nextObject
  lastStreamId : d.lastStreamId = c.lastStreamId
  nextStreamId : d.nextStreamId = c.nextStreamId
  streams : d.streams.Sublist c.streams
  objects : ∀ object, SameStream (c.objects object) (d.objects object)
  log : ∃ frames : List Frame, d.log = c.log ++ frames.map Event.wrote
  goingAway : c.goingAway = true → d.goingAway = true

theorem Quiet.refl (c : Http2Connection) : Quiet c c where
  isServer := rfl
  maxBodySize := rfl
  decoder := rfl
  pendingHeaders := rfl
  ready := rfl
  driven := rfl
  feeding := rfl
  nextObject := rfl
  lastStreamId := rfl
  nextStreamId := rfl
  streams := List.Sublist.refl _
  objects := fun _ => .refl _
  log := ⟨[], by simp⟩
  goingAway := id

theorem Quiet.trans {c d e : Http2Connection} (h : Quiet c d) (k : Quiet d e) : Quiet c e where
  isServer := k.isServer.trans h.isServer
  maxBodySize := k.maxBodySize.trans h.maxBodySize
  decoder := k.decoder.trans h.decoder
  pendingHeaders := k.pendingHeaders.trans h.pendingHeaders
  ready := k.ready.trans h.ready
  driven := k.driven.trans h.driven
  feeding := k.feeding.trans h.feeding
  nextObject := k.nextObject.trans h.nextObject
  lastStreamId := k.lastStreamId.trans h.lastStreamId
  nextStreamId := k.nextStreamId.trans h.nextStreamId
  streams := k.streams.trans h.streams
  objects := fun object => (h.objects object).trans (k.objects object)
  log := by
    obtain ⟨first, hfirst⟩ := h.log
    obtain ⟨more, hmore⟩ := k.log
    exact ⟨first ++ more, by rw [hmore, hfirst, List.map_append, List.append_assoc]⟩
  goingAway := fun hg => k.goingAway (h.goingAway hg)

theorem write_quiet (c : Http2Connection) (type flags streamId : Nat) (payload : List UInt8) :
    Quiet c (c.write type flags streamId payload) where
  isServer := rfl
  maxBodySize := rfl
  decoder := rfl
  pendingHeaders := rfl
  ready := rfl
  driven := rfl
  feeding := rfl
  nextObject := rfl
  lastStreamId := rfl
  nextStreamId := rfl
  streams := List.Sublist.refl _
  objects := fun _ => .refl _
  log := ⟨[⟨type, flags, streamId, payload⟩], rfl⟩
  goingAway := id

/-- A state whose windows and counters alone differ. -/
theorem windows_quiet (c : Http2Connection) (sendWindow : Int) (consumed peerMaxFrame : Nat)
    (peerInitialWindow : Int) (peerMaxConcurrent encoderCapacity : Nat) (acked : Bool) :
    Quiet c { c with
      sendWindow := sendWindow, consumed := consumed, peerMaxFrame := peerMaxFrame,
      peerInitialWindow := peerInitialWindow, peerMaxConcurrent := peerMaxConcurrent,
      encoderCapacity := encoderCapacity, settingsAcked := acked } where
  isServer := rfl
  maxBodySize := rfl
  decoder := rfl
  pendingHeaders := rfl
  ready := rfl
  driven := rfl
  feeding := rfl
  nextObject := rfl
  lastStreamId := rfl
  nextStreamId := rfl
  streams := List.Sublist.refl _
  objects := fun _ => .refl _
  log := ⟨[], by simp⟩
  goingAway := id

theorem goingAway_quiet (c : Http2Connection) : Quiet c { c with goingAway := true } where
  isServer := rfl
  maxBodySize := rfl
  decoder := rfl
  pendingHeaders := rfl
  ready := rfl
  driven := rfl
  feeding := rfl
  nextObject := rfl
  lastStreamId := rfl
  nextStreamId := rfl
  streams := List.Sublist.refl _
  objects := fun _ => .refl _
  log := ⟨[], by simp⟩
  goingAway := fun _ => rfl

theorem remove_quiet (c : Http2Connection) (id : Nat) : Quiet c (c.remove id) where
  isServer := rfl
  maxBodySize := rfl
  decoder := rfl
  pendingHeaders := rfl
  ready := rfl
  driven := rfl
  feeding := rfl
  nextObject := rfl
  lastStreamId := rfl
  nextStreamId := rfl
  streams := List.filter_sublist
  objects := fun _ => .refl _
  log := ⟨[], by simp [remove]⟩
  goingAway := fun h => h

theorem modify_quiet (c : Http2Connection) (object : Nat) (f : Http2Stream → Http2Stream)
    (h : SameStream (c.objects object) (f (c.objects object))) : Quiet c (c.modify object f) where
  isServer := rfl
  maxBodySize := rfl
  decoder := rfl
  pendingHeaders := rfl
  ready := rfl
  driven := rfl
  feeding := rfl
  nextObject := rfl
  lastStreamId := rfl
  nextStreamId := rfl
  streams := List.Sublist.refl _
  objects := by
    intro other
    by_cases ho : other = object
    · subst ho
      simpa [modify] using h
    · simpa [modify, ho] using SameStream.refl _
  log := ⟨[], by simp [modify]⟩
  goingAway := id

theorem goAway_quiet (c : Http2Connection) (errorCode : Nat) (message : List UInt8) :
    Quiet c (c.goAway errorCode message) := by
  unfold goAway
  split
  · exact .refl c
  · exact (goingAway_quiet c).trans (write_quiet _ _ _ _ _)

theorem goAway_goingAway (c : Http2Connection) (errorCode : Nat) (message : List UInt8) :
    (c.goAway errorCode message).goingAway = true := by
  unfold goAway
  split
  · assumption
  · rfl

theorem fail_quiet (c : Http2Connection) (errorCode : Nat) (message : String) :
    Quiet c (c.fail errorCode message) :=
  goAway_quiet c errorCode _

theorem fail_goingAway (c : Http2Connection) (errorCode : Nat) (message : String) :
    (c.fail errorCode message).goingAway = true :=
  goAway_goingAway c errorCode _

theorem reset_quiet (c : Http2Connection) (streamId errorCode : Nat) :
    Quiet c (c.reset streamId errorCode) :=
  (remove_quiet c streamId).trans (write_quiet _ _ _ _ _)

theorem grant_quiet (c : Http2Connection) (streamId increment : Nat) :
    Quiet c (c.grant streamId increment) := by
  unfold grant
  split
  · exact .refl c
  · exact write_quiet _ _ _ _ _

theorem consume_quiet (c : Http2Connection) (length : Nat) : Quiet c (c.consume length) := by
  have hcount : Quiet c { c with consumed := c.consumed + length } :=
    windows_quiet c c.sendWindow _ c.peerMaxFrame c.peerInitialWindow c.peerMaxConcurrent
      c.encoderCapacity c.settingsAcked
  unfold consume
  simp only
  split
  · have hgrant := hcount.trans (grant_quiet _ 0 (c.consumed + length))
    exact hgrant.trans (windows_quiet _ _ 0 _ _ _ _ _)
  · exact hcount

theorem writeContinuations_quiet (n : Nat) (c : Http2Connection) (streamId limit : Nat)
    (rest : List UInt8) : Quiet c (writeContinuations n c streamId limit rest) := by
  induction n generalizing c rest with
  | zero => exact .refl c
  | succ n ih =>
      unfold writeContinuations
      split
      · exact .refl c
      · exact (write_quiet _ _ _ _ _).trans (ih _ _)

theorem writeHeaders_quiet (c : Http2Connection) (streamId : Nat) (block : List UInt8)
    (endStream : Bool) : Quiet c (c.writeHeaders streamId block endStream) := by
  unfold writeHeaders
  simp only
  split
  · exact write_quiet _ _ _ _ _
  · exact (write_quiet _ _ _ _ _).trans (writeContinuations_quiet _ _ _ _ _)

theorem refuseBody_quiet (c : Http2Connection) (object : Nat) : Quiet c (c.refuseBody object) :=
  (writeHeaders_quiet c _ _ _).trans (reset_quiet _ _ _)

theorem shiftWindows_quiet (c : Http2Connection) (delta : Int) :
    Quiet c (c.shiftWindows delta) := by
  unfold shiftWindows
  generalize c.streams = entries
  induction entries generalizing c with
  | nil => exact .refl c
  | cons entry entries ih =>
      exact (modify_quiet c entry.2 _ ⟨rfl, rfl, rfl, rfl, rfl, rfl, rfl, rfl⟩).trans (ih _)

theorem applySetting_quiet (c : Http2Connection) (identifier value : Nat) :
    Quiet c (c.applySetting identifier value).1 := by
  unfold applySetting
  split
  · split
    · exact fail_quiet _ _ _
    · exact windows_quiet c _ _ _ _ _ _ _
  · split
    · split
      · exact fail_quiet _ _ _
      · exact (windows_quiet c c.sendWindow c.consumed c.peerMaxFrame value c.peerMaxConcurrent
          c.encoderCapacity c.settingsAcked).trans (shiftWindows_quiet _ _)
    · split
      · exact windows_quiet c _ _ _ _ _ _ _
      · split
        · exact windows_quiet c _ _ _ _ _ _ _
        · exact .refl c

theorem applySettings_quiet (values : List (Nat × Nat)) (c : Http2Connection) :
    Quiet c (applySettings values c).1 := by
  induction values generalizing c with
  | nil => exact .refl c
  | cons entry values ih =>
      have hone := applySetting_quiet c entry.1 entry.2
      unfold applySettings
      split
      · rename_i d heq
        rw [heq] at hone
        exact hone.trans (ih d)
      · rename_i d heq
        rw [heq] at hone
        exact hone

theorem onSettings_quiet (c : Http2Connection) (frame : Frame) : Quiet c (c.onSettings frame) := by
  unfold onSettings
  split
  · exact windows_quiet c _ _ _ _ _ _ _
  · split
    · exact fail_quiet _ _ _
    · rename_i values _
      have hall := applySettings_quiet values c
      split
      · rename_i d heq
        rw [heq] at hall
        exact hall.trans (write_quiet _ _ _ _ _)
      · rename_i d heq
        rw [heq] at hall
        exact hall

theorem onWindowUpdate_quiet (c : Http2Connection) (frame : Frame) :
    Quiet c (c.onWindowUpdate frame) := by
  unfold onWindowUpdate
  split
  · exact fail_quiet _ _ _
  · simp only
    split
    · split
      · exact fail_quiet _ _ _
      · exact reset_quiet _ _ _
    · split
      · exact windows_quiet c _ _ _ _ _ _ _
      · split
        · exact .refl c
        · exact modify_quiet c _ _ ⟨rfl, rfl, rfl, rfl, rfl, rfl, rfl, rfl⟩

theorem onPing_quiet (c : Http2Connection) (frame : Frame) : Quiet c (c.onPing frame) := by
  unfold onPing
  split
  · exact fail_quiet _ _ _
  · split
    · exact .refl c
    · exact write_quiet _ _ _ _ _

theorem sendPiece_quiet (c : Http2Connection) (object : Nat) (piece : List UInt8) (last : Bool) :
    Quiet c (c.sendPiece object piece last) := by
  have hwrite := write_quiet c DATA (if last then FLAG_END_STREAM else 0) (c.objects object).id
    piece
  have hmodify := modify_quiet (c.write DATA (if last then FLAG_END_STREAM else 0)
    (c.objects object).id piece) object
    (fun stream => { stream with sendWindow := stream.sendWindow - piece.length })
    ⟨rfl, rfl, rfl, rfl, rfl, rfl, rfl, rfl⟩
  exact (hwrite.trans hmodify).trans (windows_quiet _ _ _ _ _ _ _ _)

theorem finishData_quiet (c : Http2Connection) (object : Nat) : Quiet c (c.finishData object) :=
  write_quiet _ _ _ _ _

/-- Frames that neither bring parts of a request nor end a session move windows alone. -/
theorem process_quiet (c : Http2Connection) (frame : Frame) (hheaders : frame.type ≠ HEADERS)
    (hcontinuation : frame.type ≠ CONTINUATION) (hdata : frame.type ≠ DATA) :
    Quiet c (c.process frame).1 ∧ (c.process frame).2 = none := by
  unfold process
  rw [if_neg hheaders, if_neg hcontinuation, if_neg hdata]
  split
  · exact ⟨fail_quiet _ _ _, rfl⟩
  · split
    · exact ⟨onSettings_quiet _ _, rfl⟩
    · split
      · exact ⟨onWindowUpdate_quiet _ _, rfl⟩
      · split
        · exact ⟨onPing_quiet _ _, rfl⟩
        · split
          · exact ⟨remove_quiet _ _, rfl⟩
          · split
            · exact ⟨goingAway_quiet _, rfl⟩
            · split
              · exact ⟨fail_quiet _ _ _, rfl⟩
              · split
                · refine ⟨?_, rfl⟩
                  simp only
                  split
                  · exact reset_quiet _ _ _
                  · exact .refl _
                · exact ⟨.refl _, rfl⟩

end Http2Connection

end Zuri.Http.H2
