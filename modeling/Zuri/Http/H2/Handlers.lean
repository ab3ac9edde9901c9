import Zuri.Http.H2.Connection

/-!
What the handlers of HEADERS, CONTINUATION and DATA come to, one case for each way
through them.
-/

namespace Zuri.Http.H2

open Frames

namespace Http2Connection

theorem lookup_mem {c : Http2Connection} {id object : Nat} (h : c.lookup id = some object) :
    (id, object) ∈ c.streams := by
  unfold lookup at h
  obtain ⟨first, rest, hsplit, _⟩ := List.lookup_eq_some_iff.mp h
  rw [hsplit]
  simp

theorem ne_of_lookup {c : Http2Connection} {id : Nat} (h : c.lookup id = none) :
    ∀ entry ∈ c.streams, entry.1 ≠ id := by
  intro entry he hid
  have hnone := List.lookup_eq_none_iff.mp h entry he
  simp [hid] at hnone

theorem modify_objects (c : Http2Connection) (object : Nat) (f : Http2Stream → Http2Stream) :
    (c.modify object f).objects object = f (c.objects object) := by
  simp [Http2Connection.modify]

theorem modify_objects_ne (c : Http2Connection) (object other : Nat)
    (f : Http2Stream → Http2Stream) (h : other ≠ object) :
    (c.modify object f).objects other = c.objects other := by
  simp [Http2Connection.modify, h]

/-- The part of a block a HEADERS frame brings, its priority off. -/
def headerFragment (frame : Frame) : List UInt8 :=
  if frame.hasFlag FLAG_PRIORITY then frame.payload.drop 5 else frame.payload

/-- The octets of a block with the part a frame brings. -/
def gathered (c : Http2Connection) (object : Nat) (payload : List UInt8) : List UInt8 :=
  if c.pendingHeaders.isNone then payload else ((c.objects object).fragment.getD []) ++ payload

def withFragment (c : Http2Connection) (object : Nat) (octets : List UInt8) : Http2Connection :=
  c.modify object fun stream => { stream with fragment := some octets }

/-- A stream with the fields of a block, or its trailers. -/
def storeFields (decoded : List Field) (ends : Bool) (stream : Http2Stream) : Http2Stream :=
  let stream :=
    if stream.headersDone then { stream with fragment := none, trailers := decoded }
    else { stream with fragment := none, fields := decoded, headersDone := true }
  if ends then { stream with ended := true } else stream

inductive Collected (c : Http2Connection) (object : Nat) (payload : List UInt8) (frame : Frame) :
    Http2Connection × Option Nat → Prop
  | large (hlong : maxHeaderBlock < (c.gathered object payload).length) :
      Collected c object payload frame
        ((c.withFragment object (c.gathered object payload)).fail ENHANCE_YOUR_CALM
          "the header block is too large", none)
  | part (hlong : ¬ maxHeaderBlock < (c.gathered object payload).length)
      (hends : frame.hasFlag FLAG_END_HEADERS = false) :
      Collected c object payload frame
        ({ c.withFragment object (c.gathered object payload) with
          pendingHeaders := some object }, none)
  | garbled (hlong : ¬ maxHeaderBlock < (c.gathered object payload).length)
      (hends : frame.hasFlag FLAG_END_HEADERS = true) (e : String)
      (hdecode : c.decoder.decode (c.gathered object payload) = .error e) :
      Collected c object payload frame
        (({ c.withFragment object (c.gathered object payload) with
          pendingHeaders := none }.note (.undecoded e)).fail COMPRESSION_ERROR e, none)
  | whole (hlong : ¬ maxHeaderBlock < (c.gathered object payload).length)
      (hends : frame.hasFlag FLAG_END_HEADERS = true) (decoded : List Field) (decoder : Decoder)
      (hdecode : c.decoder.decode (c.gathered object payload) = .ok (decoded, decoder)) :
      Collected c object payload frame
        (({ c.withFragment object (c.gathered object payload) with
          pendingHeaders := none, decoder := decoder }.note (.decoded decoded)).modify object
            (storeFields decoded (frame.hasFlag FLAG_END_STREAM)),
          if frame.hasFlag FLAG_END_STREAM then some object else none)

theorem modify_modify (c : Http2Connection) (object : Nat) (f g : Http2Stream → Http2Stream) :
    (c.modify object f).modify object g = c.modify object (g ∘ f) := by
  simp [Http2Connection.modify]

theorem collectHeaders_collected (c : Http2Connection) (object : Nat) (payload : List UInt8)
    (frame : Frame) : Collected c object payload frame (c.collectHeaders object payload frame) := by
  unfold collectHeaders
  by_cases hlong : maxHeaderBlock < (c.gathered object payload).length
  · have h : Collected c object payload frame _ := .large hlong
    unfold gathered withFragment at h
    unfold gathered at hlong
    simp only [if_pos hlong]
    exact h
  · cases hends : frame.hasFlag FLAG_END_HEADERS with
    | false =>
        have h := Collected.part hlong hends
        unfold gathered withFragment at h
        unfold gathered at hlong
        simp only [if_neg hlong, Bool.not_false, if_true]
        exact h
    | true =>
        cases hdecode : c.decoder.decode (c.gathered object payload) with
        | error e =>
            have h := Collected.garbled hlong hends e hdecode
            unfold gathered withFragment at h
            unfold gathered at hlong hdecode
            simp only [if_neg hlong, Bool.not_true, Bool.false_eq_true, if_false]
            simp only [Http2Connection.modify] at h ⊢
            rw [hdecode]
            exact h
        | ok result =>
            obtain ⟨decoded, decoder⟩ := result
            have h := Collected.whole hlong hends decoded decoder hdecode
            unfold gathered withFragment at h
            unfold gathered at hlong hdecode
            simp only [if_neg hlong, Bool.not_true, Bool.false_eq_true, if_false]
            split
            · rename_i e he
              cases hdecode.symm.trans he
            · rename_i read after hread
              cases hdecode.symm.trans hread
              cases hstream : frame.hasFlag FLAG_END_STREAM with
              | false =>
                  rw [hstream] at h
                  exact h
              | true =>
                  rw [hstream] at h
                  simp only [if_true]
                  rw [modify_modify]
                  exact h

/-- What becomes of a HEADERS frame. -/
inductive HeadersTaken (c : Http2Connection) (frame : Frame) :
    Http2Connection × Option Nat → Prop
  | streamZero (hid : frame.streamId = 0) :
      HeadersTaken c frame (c.fail PROTOCOL_ERROR "HEADERS on stream 0", none)
  | short (hid : frame.streamId ≠ 0) (hpriority : frame.hasFlag FLAG_PRIORITY = true)
      (hshort : frame.payload.length < 5) :
      HeadersTaken c frame
        (c.fail FRAME_SIZE_ERROR "HEADERS is too short for its priority field", none)
  | known (hid : frame.streamId ≠ 0) (object : Nat) (hlookup : c.lookup frame.streamId = some object)
      (result : Http2Connection × Option Nat)
      (h : Collected c object (headerFragment frame) frame result) : HeadersTaken c frame result
  | invalid (hid : frame.streamId ≠ 0) (hlookup : c.lookup frame.streamId = none)
      (hserver : c.isServer = true)
      (hold : frame.streamId % 2 = 0 ∨ frame.streamId ≤ c.lastStreamId) :
      HeadersTaken c frame (c.fail PROTOCOL_ERROR "invalid stream identifier", none)
  | refused (hid : frame.streamId ≠ 0) (hlookup : c.lookup frame.streamId = none)
      (hserver : c.isServer = true)
      (hnew : ¬ (frame.streamId % 2 = 0 ∨ frame.streamId ≤ c.lastStreamId))
      (hfull : maxConcurrentStreams ≤ c.streams.length) :
      HeadersTaken c frame
        ({ c with lastStreamId := frame.streamId }.reset frame.streamId REFUSED_STREAM, none)
  | fresh (hid : frame.streamId ≠ 0) (hlookup : c.lookup frame.streamId = none)
      (hserver : c.isServer = true)
      (hnew : ¬ (frame.streamId % 2 = 0 ∨ frame.streamId ≤ c.lastStreamId))
      (hroom : ¬ maxConcurrentStreams ≤ c.streams.length) (result : Http2Connection × Option Nat)
      (h : Collected ({ c with lastStreamId := frame.streamId }.openStream frame.streamId)
        c.nextObject (headerFragment frame) frame result) : HeadersTaken c frame result
  | response (hid : frame.streamId ≠ 0) (hlookup : c.lookup frame.streamId = none)
      (hclient : c.isServer = false) (result : Http2Connection × Option Nat)
      (h : Collected (c.openStream frame.streamId) c.nextObject (headerFragment frame) frame
        result) : HeadersTaken c frame result

theorem onHeaders_taken (c : Http2Connection) (frame : Frame) :
    HeadersTaken c frame (c.onHeaders frame) := by
  unfold onHeaders
  split
  · rename_i hid
    exact .streamZero hid
  · rename_i hid
    split
    · rename_i hpriority
      obtain ⟨hflag, hshort⟩ := Bool.and_eq_true_iff.mp hpriority
      exact .short hid hflag (of_decide_eq_true hshort)
    · simp only
      split
      · rename_i object hlookup
        exact .known hid object hlookup _ (collectHeaders_collected _ _ _ _)
      · rename_i hlookup
        split
        · rename_i hserver
          split
          · rename_i hold
            exact .invalid hid hlookup hserver hold
          · rename_i hnew
            split
            · rename_i hfull
              exact .refused hid hlookup hserver hnew hfull
            · rename_i hroom
              exact .fresh hid hlookup hserver hnew hroom _ (collectHeaders_collected _ _ _ _)
        · rename_i hclient
          exact .response hid hlookup (by simpa using hclient) _ (collectHeaders_collected _ _ _ _)

/-- What becomes of a CONTINUATION frame. -/
inductive ContinuationTaken (c : Http2Connection) (frame : Frame) :
    Http2Connection × Option Nat → Prop
  | unexpected
      (h : ∀ object, c.pendingHeaders = some object → (c.objects object).id ≠ frame.streamId) :
      ContinuationTaken c frame (c.fail PROTOCOL_ERROR "unexpected CONTINUATION", none)
  | more (object : Nat) (hpending : c.pendingHeaders = some object)
      (hid : (c.objects object).id = frame.streamId) (result : Http2Connection × Option Nat)
      (h : Collected c object frame.payload frame result) : ContinuationTaken c frame result

theorem onContinuation_taken (c : Http2Connection) (frame : Frame) :
    ContinuationTaken c frame (c.onContinuation frame) := by
  unfold onContinuation
  split
  · rename_i hpending
    exact .unexpected fun object ho => absurd (hpending.symm.trans ho) (by simp)
  · rename_i object hpending
    split
    · rename_i hid
      refine .unexpected fun other ho => ?_
      cases hpending.symm.trans ho
      exact hid
    · rename_i hid
      exact .more object hpending (not_not.mp hid) _ (collectHeaders_collected _ _ _ _)

def received (c : Http2Connection) (object : Nat) (payload : List UInt8) : Http2Connection :=
  c.modify object fun stream =>
    { stream with
      data := stream.data ++ payload
      consumed := stream.consumed + payload.length }

def refill (c : Http2Connection) (object : Nat) : Http2Connection :=
  if windowRefillAt ≤ (c.objects object).consumed then
    (c.grant (c.objects object).id (c.objects object).consumed).modify object
      fun stream => { stream with consumed := 0 }
  else c

def markEnded (c : Http2Connection) (object : Nat) (ends : Bool) : Http2Connection :=
  if ends then c.modify object fun stream => { stream with ended := true } else c

/-- What becomes of a DATA frame. -/
inductive DataTaken (c : Http2Connection) (frame : Frame) : Http2Connection × Option Nat → Prop
  | streamZero (hid : frame.streamId = 0) :
      DataTaken c frame (c.fail PROTOCOL_ERROR "DATA on stream 0", none)
  | unknown (hid : frame.streamId ≠ 0) (hlookup : c.lookup frame.streamId = none) :
      DataTaken c frame
        ((c.consume frame.payload.length).reset frame.streamId STREAM_CLOSED, none)
  | large (hid : frame.streamId ≠ 0) (object : Nat) (hlookup : c.lookup frame.streamId = some object)
      (hlong : c.maxBodySize <
        (((c.consume frame.payload.length).received object frame.payload).objects
          object).data.length) :
      DataTaken c frame
        (((c.consume frame.payload.length).received object frame.payload).refuseBody object, none)
  | kept (hid : frame.streamId ≠ 0) (object : Nat) (hlookup : c.lookup frame.streamId = some object)
      (hfits : ¬ c.maxBodySize <
        (((c.consume frame.payload.length).received object frame.payload).objects
          object).data.length) :
      DataTaken c frame
        ((((c.consume frame.payload.length).received object frame.payload).refill
            object).markEnded object (frame.hasFlag FLAG_END_STREAM),
          if frame.hasFlag FLAG_END_STREAM then some object else none)

theorem consume_maxBodySize (c : Http2Connection) (length : Nat) :
    (c.consume length).maxBodySize = c.maxBodySize := by
  unfold consume grant
  simp only
  split
  · split <;> rfl
  · rfl

theorem onData_taken (c : Http2Connection) (frame : Frame) :
    DataTaken c frame (c.onData frame) := by
  have hmax : ((c.consume frame.payload.length).received (0 : Nat) frame.payload).maxBodySize =
      c.maxBodySize := consume_maxBodySize c frame.payload.length
  unfold onData
  split
  · rename_i hid
    exact .streamZero hid
  · rename_i hid
    simp only
    split
    · rename_i hlookup
      exact .unknown hid hlookup
    · rename_i object hlookup
      split
      · rename_i hlong
        exact .large hid object hlookup (hmax ▸ hlong)
      · rename_i hfits
        have h : DataTaken c frame _ := .kept hid object hlookup (hmax ▸ hfits)
        unfold markEnded refill received at h
        cases hends : frame.hasFlag FLAG_END_STREAM with
        | false =>
            rw [hends] at h
            exact h
        | true =>
            rw [hends] at h
            exact h

inductive Processed (c : Http2Connection) (frame : Frame) : Http2Connection × Option Nat → Prop
  | interrupted (hpending : c.pendingHeaders.isSome = true) (htype : frame.type ≠ CONTINUATION) :
      Processed c frame (c.fail PROTOCOL_ERROR "a frame interrupted a header block", none)
  | headers (hpending : c.pendingHeaders = none) (htype : frame.type = HEADERS)
      (result : Http2Connection × Option Nat) (h : HeadersTaken c frame result) :
      Processed c frame result
  | continuation (htype : frame.type = CONTINUATION) (result : Http2Connection × Option Nat)
      (h : ContinuationTaken c frame result) : Processed c frame result
  | data (hpending : c.pendingHeaders = none) (htype : frame.type = DATA)
      (result : Http2Connection × Option Nat) (h : DataTaken c frame result) :
      Processed c frame result
  | settings (hpending : c.pendingHeaders = none) (htype : frame.type = SETTINGS) :
      Processed c frame (c.onSettings frame, none)
  | windowUpdate (hpending : c.pendingHeaders = none) (htype : frame.type = WINDOW_UPDATE) :
      Processed c frame (c.onWindowUpdate frame, none)
  | ping (hpending : c.pendingHeaders = none) (htype : frame.type = PING) :
      Processed c frame (c.onPing frame, none)
  | resetStream (hpending : c.pendingHeaders = none) (htype : frame.type = RST_STREAM) :
      Processed c frame (c.remove frame.streamId, none)
  | goaway (hpending : c.pendingHeaders = none) (htype : frame.type = GOAWAY) :
      Processed c frame ({ c with goingAway := true }, none)
  | pushPromise (hpending : c.pendingHeaders = none) (htype : frame.type = PUSH_PROMISE) :
      Processed c frame (c.fail PROTOCOL_ERROR "PUSH_PROMISE is not allowed here", none)
  | priority (hpending : c.pendingHeaders = none) (htype : frame.type = PRIORITY)
      (hsize : frame.payload.length ≠ 5) :
      Processed c frame (c.reset frame.streamId FRAME_SIZE_ERROR, none)
  | ignored (hpending : c.pendingHeaders = none) (hheaders : frame.type ≠ HEADERS)
      (hcontinuation : frame.type ≠ CONTINUATION) (hdata : frame.type ≠ DATA)
      (hsettings : frame.type ≠ SETTINGS) (hwindow : frame.type ≠ WINDOW_UPDATE)
      (hreset : frame.type ≠ RST_STREAM) (hgoaway : frame.type ≠ GOAWAY) :
      Processed c frame (c, none)

theorem process_processed (c : Http2Connection) (frame : Frame) :
    Processed c frame (c.process frame) := by
  unfold process
  by_cases hinterrupted : c.pendingHeaders.isSome ∧ frame.type ≠ CONTINUATION
  · rw [if_pos hinterrupted]
    exact .interrupted hinterrupted.1 hinterrupted.2
  · rw [if_neg hinterrupted]
    by_cases hcontinuation : frame.type = CONTINUATION
    · rw [if_neg (by rw [hcontinuation]; decide), if_pos hcontinuation]
      exact .continuation hcontinuation _ (onContinuation_taken c frame)
    · have hpending : c.pendingHeaders = none := by
        cases hp : c.pendingHeaders with
        | none => rfl
        | some object => exact absurd ⟨by rw [hp]; rfl, hcontinuation⟩ hinterrupted
      rw [if_neg hcontinuation]
      split
      · rename_i htype
        exact .headers hpending htype _ (onHeaders_taken c frame)
      · rename_i hheaders
        split
        · rename_i htype
          exact .data hpending htype _ (onData_taken c frame)
        · rename_i hdata
          split
          · rename_i htype
            exact .settings hpending htype
          · rename_i hsettings
            split
            · rename_i htype
              exact .windowUpdate hpending htype
            · rename_i hwindow
              split
              · rename_i htype
                exact .ping hpending htype
              · split
                · rename_i htype
                  exact .resetStream hpending htype
                · rename_i hreset
                  split
                  · rename_i htype
                    exact .goaway hpending htype
                  · rename_i hgoaway
                    have hignored := Processed.ignored hpending hheaders hcontinuation hdata
                      hsettings hwindow hreset hgoaway
                    split
                    · rename_i htype
                      exact .pushPromise hpending htype
                    · split
                      · rename_i htype
                        split
                        · rename_i hsize
                          exact .priority hpending htype hsize
                        · exact hignored
                      · exact hignored

end Http2Connection

end Zuri.Http.H2
