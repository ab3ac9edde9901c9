import Zuri.Http.H2.Quiet
import Mathlib.Logic.Relation

/-!
A session as a transition system: what a connection does between two frames, a piece
of a body, or the answer to a request, with the stream whose response is being written.
Everything the functions of the connection do is a run of it, so what every transition
preserves holds in every state they reach.
-/

namespace Zuri.Http.H2

open Frames Http2Connection

/-- A connection, and the object whose body a function is writing out. -/
structure Session where
  conn : Http2Connection
  writing : Option Nat

/-- The objects of complete requests whose responses are not written out. -/
def Session.busy (s : Session) : List Nat := s.writing.toList ++ s.conn.ready

inductive Step : Session → Session → Prop
  | receive (s : Session) (wire frame : Frame) (hread : readFrame maxFrameSize wire = .ok frame)
      (hgoing : s.conn.goingAway = false) :
      Step s ⟨s.conn.receive s.busy wire frame, s.writing⟩
  | observe (c : Http2Connection) (wire frame : Frame)
      (hread : readFrame maxFrameSize wire = .ok frame) (hgoing : c.goingAway = false)
      (hclient : c.isServer = false) :
      Step ⟨c, none⟩ ⟨((c.noteRead c.ready wire).process frame).1, none⟩
  | forget (c : Http2Connection) (id : Nat) (hclient : c.isServer = false) :
      Step ⟨c, none⟩ ⟨c.remove id, none⟩
  | malformed (s : Session) (wire : Frame) : Step s ⟨s.conn.note (.malformed wire), s.writing⟩
  | late (c : Http2Connection) (wire : Frame) (hgoing : c.goingAway = true) :
      Step ⟨c, none⟩ ⟨c.noteRead c.ready wire, none⟩
  | fail (c : Http2Connection) (wire : Frame) (message : String) :
      Step ⟨c, none⟩ ⟨(c.note (.malformed wire)).fail PROTOCOL_ERROR message, none⟩
  | hand (c : Http2Connection) (object : Nat) (ready : List Nat) (request : HttpRequest)
      (hready : c.ready = object :: ready)
      (hrequest : toRequest (c.objects object).fields (c.objects object).data = .ok request)
      (hserver : c.isServer = true) :
      Step ⟨c, none⟩
        ⟨{ c with ready := ready }.note (.handed (c.objects object).id (c.objects object).fields
          (c.objects object).data request), some object⟩
  | reject (c : Http2Connection) (object : Nat) (ready : List Nat) (message : String)
      (hready : c.ready = object :: ready)
      (hrequest : toRequest (c.objects object).fields (c.objects object).data = .error message)
      (hserver : c.isServer = true) :
      Step ⟨c, none⟩ ⟨{ c with ready := ready }.reset (c.objects object).id PROTOCOL_ERROR, none⟩
  | request (c : Http2Connection) (hclient : c.isServer = false) :
      Step ⟨c, none⟩
        ⟨{ c.openStream c.nextStreamId with nextStreamId := c.nextStreamId + 2 },
          some c.nextObject⟩
  | headers (c : Http2Connection) (object : Nat) (block : List UInt8) (endStream : Bool) :
      Step ⟨c, some object⟩ ⟨c.writeHeaders (c.objects object).id block endStream, some object⟩
  | piece (c : Http2Connection) (object : Nat) (piece : List UInt8) (last : Bool)
      (hfits : (piece.length : Int) ≤ c.writable object) :
      Step ⟨c, some object⟩ ⟨c.sendPiece object piece last, some object⟩
  | finish (c : Http2Connection) (object : Nat) :
      Step ⟨c, some object⟩ ⟨c.finishData object, some object⟩
  | park (c : Http2Connection) (object : Nat) (feed : Feed) (hserver : c.isServer = true) :
      Step ⟨c, some object⟩ ⟨c.park object feed, some object⟩
  | abort (c : Http2Connection) (object : Nat) :
      Step ⟨c, some object⟩ ⟨c.reset (c.objects object).id INTERNAL_ERROR, none⟩
  | release (c : Http2Connection) (object : Nat) (hserver : c.isServer = true) :
      Step ⟨c, some object⟩
        ⟨if (c.objects object).feed.isNone then c.remove (c.objects object).id else c, none⟩
  | leave (c : Http2Connection) (object : Nat) (hclient : c.isServer = false) :
      Step ⟨c, some object⟩ ⟨c, none⟩
  | feedPiece (c : Http2Connection) (object : Nat) (piece : List UInt8) (left : Feed)
      (hserver : c.isServer = true) (hfeeding : object ∈ c.feeding)
      (hopen : (c.lookup (c.objects object).id).isSome = true)
      (hfits : (piece.length : Int) ≤ c.writable object) :
      Step ⟨c, none⟩
        ⟨(c.modify object fun stream => { stream with feed := some left }).sendPiece object piece
          left.isDone, none⟩
  | feedEnd (c : Http2Connection) (object : Nat) (left : Feed) (hserver : c.isServer = true)
      (hfeeding : object ∈ c.feeding) (hopen : (c.lookup (c.objects object).id).isSome = true) :
      Step ⟨c, none⟩
        ⟨(c.modify object fun stream => { stream with feed := some left }).finishData object, none⟩
  | feedDone (c : Http2Connection) (object : Nat) (hserver : c.isServer = true)
      (hfeeding : object ∈ c.feeding) : Step ⟨c, none⟩ ⟨c.finishFeed object, none⟩
  | unfeed (c : Http2Connection) (object : Nat) :
      Step ⟨c, none⟩ ⟨c.modify object fun stream => { stream with feed := none }, none⟩
  | waitingList (c : Http2Connection) (waiting : List Nat) (h : waiting ⊆ c.feeding) :
      Step ⟨c, none⟩ ⟨{ c with feeding := waiting }, none⟩
  | drive (c : Http2Connection) : Step ⟨c, none⟩ ⟨c.drive, none⟩

abbrev Steps : Session → Session → Prop := Relation.ReflTransGen Step

theorem awaitWindow_steps (input : List Frame) (c : Http2Connection) (object : Nat) :
    Steps ⟨c, some object⟩ ⟨(awaitWindow input c object).2.2, some object⟩ := by
  induction input generalizing c with
  | nil =>
      unfold awaitWindow
      split
      · exact .refl
      · split <;> exact .refl
  | cons wire input ih =>
      unfold awaitWindow
      split
      · exact .refl
      · split
        · exact .refl
        · rename_i hgoing
          split
          · exact .single (.malformed ⟨c, some object⟩ wire)
          · rename_i frame hread
            exact .head (.receive ⟨c, some object⟩ wire frame hread (by simpa using hgoing)) (ih _)

theorem awaitWindow_writable (input : List Frame) (c : Http2Connection) (object : Nat)
    (h : (awaitWindow input c object).1 = none) :
    0 < (awaitWindow input c object).2.2.writable object := by
  induction input generalizing c with
  | nil =>
      unfold awaitWindow at h ⊢
      split at h
      · rename_i hpos
        simpa only [if_pos hpos] using hpos
      · split at h <;> cases h
  | cons wire input ih =>
      unfold awaitWindow at h ⊢
      split at h
      · rename_i hpos
        simpa only [if_pos hpos] using hpos
      · rename_i hclosed
        split at h
        · cases h
        · rename_i hgoing
          split at h
          · cases h
          · rename_i frame hread
            simp only [if_neg hclosed, if_neg hgoing]
            exact ih _ h

theorem sendLoop_steps (n : Nat) (input : List Frame) (c : Http2Connection) (object : Nat)
    (data : List UInt8) (endStream : Bool) :
    Steps ⟨c, some object⟩ ⟨(sendLoop n input c object data endStream).2.2, some object⟩ := by
  induction n generalizing input c data with
  | zero => exact .refl
  | succ n ih =>
      unfold sendLoop
      split
      · exact .refl
      · have hwait := awaitWindow_steps input c object
        have hopen := awaitWindow_writable input c object
        split
        · rename_i heq
          rw [heq] at hwait
          exact hwait
        · rename_i heq
          rw [heq] at hwait hopen
          have hpos := hopen rfl
          simp only at hpos
          refine hwait.trans (.head (.piece _ object _ _ ?_) (ih _ _ _))
          simp only [List.length_take]
          omega

theorem sendData_steps (input : List Frame) (c : Http2Connection) (object : Nat)
    (data : List UInt8) (endStream : Bool) :
    Steps ⟨c, some object⟩ ⟨(sendData input c object data endStream).2.2, some object⟩ := by
  have hloop := sendLoop_steps data.length input c object data endStream
  unfold sendData
  split
  · rename_i heq
    rw [heq] at hloop
    exact hloop
  · rename_i heq
    rw [heq] at hloop
    refine hloop.trans ?_
    simp only
    split
    · exact .single (.finish _ object)
    · exact .refl

theorem sendFileLoop_steps (n : Nat) (input : List Frame) (c : Http2Connection) (object : Nat)
    (content : List UInt8) (remaining : Nat) :
    Steps ⟨c, some object⟩ ⟨(sendFileLoop n input c object content remaining).2.2, some object⟩ := by
  induction n generalizing input c content remaining with
  | zero => exact .refl
  | succ n ih =>
      unfold sendFileLoop
      split
      · exact .refl
      · simp only
        split
        · exact .refl
        · have hsend := sendData_steps input c object (content.take (min remaining 65536))
            (decide (remaining - (content.take (min remaining 65536)).length = 0))
          split
          · rename_i heq
            rw [heq] at hsend
            exact hsend
          · rename_i heq
            rw [heq] at hsend
            exact hsend.trans (ih _ _ _ _)

theorem sendChunks_steps (chunks : List (List UInt8)) (input : List Frame) (c : Http2Connection)
    (object : Nat) :
    Steps ⟨c, some object⟩ ⟨(sendChunks chunks input c object).2.2, some object⟩ := by
  induction chunks generalizing input c with
  | nil => exact .refl
  | cons chunk chunks ih =>
      unfold sendChunks
      split
      · exact ih input c
      · have hsend := sendData_steps input c object chunk false
        split
        · rename_i heq
          rw [heq] at hsend
          exact hsend
        · rename_i heq
          rw [heq] at hsend
          exact hsend.trans (ih _ _)

theorem sendBody_steps (input : List Frame) (c : Http2Connection) (object : Nat)
    (body : List UInt8) (hserver : c.isServer = true) :
    Steps ⟨c, some object⟩ ⟨(sendBody input c object body).2.2, some object⟩ := by
  unfold sendBody
  split
  · exact .single (.park c object _ hserver)
  · exact sendData_steps input c object body true

theorem sendFile_steps (input : List Frame) (c : Http2Connection) (object : Nat)
    (content : List UInt8) (length : Nat) (hserver : c.isServer = true) :
    Steps ⟨c, some object⟩ ⟨(sendFile input c object content length).2.2, some object⟩ := by
  unfold sendFile
  split
  · exact .single (.park c object _ hserver)
  · exact sendFileLoop_steps length input c object content length

theorem reset_remove (c : Http2Connection) (id code : Nat) :
    (c.reset id code).remove id = c.reset id code := by
  unfold reset write note remove
  simp [List.filter_filter]

/-- The response is written, or its stream was reset and taken out of the table. -/
def Written (c : Http2Connection) (object : Nat) (d : Http2Connection) : Prop :=
  Steps ⟨c, some object⟩ ⟨d, some object⟩ ∨
    (Steps ⟨c, some object⟩ ⟨d, none⟩ ∧ d.remove (d.objects object).id = d)

theorem sendStream_steps (input : List Frame) (c : Http2Connection) (object : Nat)
    (chunks : List (List UInt8)) (fails : Bool) :
    Written c object (sendStream input c object chunks fails).2.2 := by
  have hchunks := sendChunks_steps chunks input c object
  unfold sendStream
  split
  · rename_i heq
    rw [heq] at hchunks
    exact .inr ⟨hchunks.tail (.abort _ object), reset_remove _ _ _⟩
  · rename_i heq
    rw [heq] at hchunks
    split
    · exact .inr ⟨hchunks.tail (.abort _ object), reset_remove _ _ _⟩
    · exact .inl (hchunks.trans (sendData_steps _ _ _ _ _))

theorem writeResponse_steps (input : List Frame) (c : Http2Connection) (object : Nat)
    (request : HttpRequest) (response : Response) (hserver : c.isServer = true) :
    Written c object (writeResponse input c object request response).2.2 := by
  have hhead := Step.headers c object (encodeBlock (responseFields response))
    (endsAtHeaders request response)
  have hrole := (writeHeaders_quiet c (c.objects object).id
    (encodeBlock (responseFields response)) (endsAtHeaders request response)).isServer
  unfold writeResponse
  simp only
  split
  · exact .inl (.single hhead)
  · split
    · exact .inl (.head hhead (sendBody_steps _ _ _ _ (hrole.trans hserver)))
    · exact .inl (.head hhead (sendFile_steps _ _ _ _ _ (hrole.trans hserver)))
    · rename_i chunks fails _
      rcases sendStream_steps input _ object chunks fails with h | ⟨h, hremove⟩
      · exact .inl (.head hhead h)
      · exact .inr ⟨.head hhead h, hremove⟩

theorem collectHeaders_role (c : Http2Connection) (object : Nat) (payload : List UInt8)
    (frame : Frame) :
    (c.collectHeaders object payload frame).1.isServer = c.isServer := by
  unfold collectHeaders
  generalize (if c.pendingHeaders.isNone then payload
    else ((c.objects object).fragment.getD []) ++ payload) = fragment
  simp only
  split
  · exact (fail_quiet _ _ _).isServer
  · split
    · rfl
    · split
      · exact (fail_quiet _ _ _).isServer
      · split <;> rfl

theorem onHeaders_role (c : Http2Connection) (frame : Frame) :
    (c.onHeaders frame).1.isServer = c.isServer := by
  unfold onHeaders
  split
  · exact (fail_quiet _ _ _).isServer
  · split
    · exact (fail_quiet _ _ _).isServer
    · simp only
      split
      · exact collectHeaders_role _ _ _ _
      · split
        · split
          · exact (fail_quiet _ _ _).isServer
          · split
            · exact (reset_quiet _ _ _).isServer
            · exact collectHeaders_role _ _ _ _
        · exact collectHeaders_role _ _ _ _

theorem onContinuation_role (c : Http2Connection) (frame : Frame) :
    (c.onContinuation frame).1.isServer = c.isServer := by
  unfold onContinuation
  split
  · exact (fail_quiet _ _ _).isServer
  · split
    · exact (fail_quiet _ _ _).isServer
    · exact collectHeaders_role _ _ _ _

theorem onData_role (c : Http2Connection) (frame : Frame) :
    (c.onData frame).1.isServer = c.isServer := by
  have hconsume := (consume_quiet c frame.payload.length).isServer
  unfold onData
  split
  · exact (fail_quiet _ _ _).isServer
  · simp only
    split
    · exact ((consume_quiet _ _).trans (reset_quiet _ _ _)).isServer
    · split
      · exact (refuseBody_quiet _ _).isServer.trans hconsume
      · split
        · split
          · exact (grant_quiet _ _ _).isServer.trans hconsume
          · exact hconsume
        · split
          · exact (grant_quiet _ _ _).isServer.trans hconsume
          · exact hconsume

theorem process_role (c : Http2Connection) (frame : Frame) :
    (c.process frame).1.isServer = c.isServer := by
  by_cases hheaders : frame.type = HEADERS
  · unfold process
    split
    · exact (fail_quiet _ _ _).isServer
    · exact onHeaders_role c frame
  · by_cases hcontinuation : frame.type = CONTINUATION
    · unfold process
      split
      · exact (fail_quiet _ _ _).isServer
      · exact onContinuation_role c frame
    · by_cases hdata : frame.type = DATA
      · unfold process
        split
        · exact (fail_quiet _ _ _).isServer
        · exact onData_role c frame
      · exact (process_quiet c frame hheaders hcontinuation hdata).1.isServer

theorem receive_role (c : Http2Connection) (busy : List Nat) (wire frame : Frame) :
    (c.receive busy wire frame).isServer = c.isServer := by
  have h := process_role (c.noteRead busy wire) frame
  unfold receive
  simp only
  split <;> exact h

theorem Step.role {s t : Session} (h : Step s t) : t.conn.isServer = s.conn.isServer := by
  cases h with
  | receive wire frame hread hgoing => exact receive_role _ _ _ _
  | observe c wire frame hread hgoing hclient => exact process_role _ _
  | forget c id hclient => rfl
  | malformed wire => rfl
  | late c wire hgoing => rfl
  | fail c wire message => exact (fail_quiet _ _ _).isServer
  | hand c object ready request hready hrequest hserver => rfl
  | reject c object ready message hready hrequest hserver => rfl
  | request c hclient => rfl
  | headers c object block endStream => exact (writeHeaders_quiet _ _ _ _).isServer
  | piece c object piece last hfits => rfl
  | finish c object => rfl
  | park c object feed hserver => rfl
  | abort c object => rfl
  | release c object hserver =>
      simp only
      split <;> rfl
  | leave c object hclient => rfl
  | feedPiece c object piece left hserver hfeeding hopen hfits => rfl
  | feedEnd c object left hserver hfeeding hopen => rfl
  | feedDone c object hserver hfeeding => rfl
  | unfeed c object => rfl
  | waitingList c waiting h => rfl
  | drive c => rfl

theorem Steps.role {s t : Session} (h : Steps s t) : t.conn.isServer = s.conn.isServer := by
  induction h with
  | refl => rfl
  | tail _ hstep ih => exact hstep.role.trans ih

theorem answer_steps (handler : List Event → HttpRequest → Response) (input : List Frame)
    (c : Http2Connection) (object : Nat) (ready : List Nat) (hready : c.ready = object :: ready)
    (hserver : c.isServer = true) :
    Steps ⟨c, none⟩ ⟨(answer handler input { c with ready := ready } object).2.2, none⟩ := by
  unfold answer
  simp only
  split
  · rename_i message hrequest
    exact .single (.reject c object ready message hready hrequest hserver)
  · rename_i request hrequest
    have hhand := Step.hand c object ready request hready hrequest hserver
    refine .head hhand ?_
    simp only
    generalize ({ c with ready := ready }.note (.handed (c.objects object).id
      (c.objects object).fields (c.objects object).data request)) = d at hhand ⊢
    have hrole : d.isServer = true := hhand.role.trans hserver
    rcases writeResponse_steps input d object request (handler d.log request) hrole with
      h | ⟨h, hremove⟩
    · exact h.tail (.release _ object (h.role.trans hrole))
    · rw [hremove, ite_self]
      exact h

theorem answerAll_steps (handler : List Event → HttpRequest → Response) (n : Nat)
    (input : List Frame) (c : Http2Connection) (hserver : c.isServer = true) :
    Steps ⟨c, none⟩ ⟨(answerAll handler n input c).2.2, none⟩ := by
  induction n generalizing input c with
  | zero => exact .refl
  | succ n ih =>
      unfold answerAll
      split
      · exact .refl
      · rename_i object ready hready
        have hone := answer_steps handler input c object ready hready hserver
        split
        · rename_i heq
          rw [heq] at hone
          exact hone
        · rename_i heq
          rw [heq] at hone
          exact hone.trans (ih _ _ (hone.role.trans hserver))

theorem takeFrame_steps (handler : List Event → HttpRequest → Response) (input : List Frame)
    (c : Http2Connection) (hserver : c.isServer = true) :
    Steps ⟨c, none⟩ ⟨(takeFrame handler input c).2.2, none⟩ := by
  unfold takeFrame
  split
  · exact .refl
  · rename_i wire input
    split
    · exact .single (.fail c wire _)
    · rename_i frame hread
      split
      · rename_i hgoing
        exact .single (.late c wire hgoing)
      · rename_i hgoing
        have hreceive := Step.receive ⟨c, none⟩ wire frame hread (by simpa using hgoing)
        have hrole : (c.receive c.ready wire frame).isServer = true :=
          (receive_role _ _ _ _).trans hserver
        have hall := answerAll_steps handler
          ((c.receive c.ready wire frame).ready.length + input.length) input _ hrole
        simp only
        split
        · rename_i heq
          rw [heq] at hall
          exact .head hreceive hall
        · rename_i heq
          rw [heq] at hall
          exact .head hreceive hall

theorem pushFeed_steps (room : Nat) (c : Http2Connection) (object : Nat)
    (hserver : c.isServer = true) (hfeeding : object ∈ c.feeding)
    (hopen : (c.lookup (c.objects object).id).isSome = true) :
    Steps ⟨c, none⟩ ⟨(pushFeed room c object).1, none⟩ := by
  induction room generalizing c with
  | zero => exact .refl
  | succ room ih =>
      unfold pushFeed
      split
      · exact .refl
      · split
        · exact .refl
        · rename_i feed hfeed hpos
          split
          · rename_i left hnext
            exact .head (.feedEnd c object left hserver hfeeding hopen)
              (.single (.feedDone _ object hserver hfeeding))
          · rename_i piece left hnext
            have hfits : (piece.length : Int) ≤ c.writable object := by
              have hlen := feed.next_length (c.writable object).toNat
              rw [hnext] at hlen
              have := hlen piece rfl
              omega
            have hstep := Step.feedPiece c object piece left hserver hfeeding hopen hfits
            simp only
            split
            · exact .head hstep (.single (.feedDone _ object hserver hfeeding))
            · refine .head hstep (ih _ hserver hfeeding ?_)
              have hid := ((c.modify object fun stream =>
                { stream with feed := some left }).sendPiece_quiet object piece left.isDone).objects
                  object
              have hsame : ((c.modify object fun stream =>
                  { stream with feed := some left }).objects object).id = (c.objects object).id := by
                simp [Http2Connection.modify]
              rw [hid.id, hsame]
              exact hopen

theorem pushFeed_feeding (room : Nat) (c : Http2Connection) (object : Nat) :
    (pushFeed room c object).1.feeding = c.feeding := by
  induction room generalizing c with
  | zero => rfl
  | succ room ih =>
      unfold pushFeed
      split
      · rfl
      · split
        · rfl
        · split
          · rfl
          · simp only
            split
            · rfl
            · exact ih _

theorem resumeLoop_steps (room : Nat → Nat) (objects : List Nat) (c : Http2Connection)
    (hserver : c.isServer = true) (hobjects : objects ⊆ c.feeding) :
    Steps ⟨c, none⟩ ⟨(resumeLoop room objects c).1, none⟩ ∧
      (resumeLoop room objects c).1.feeding = c.feeding ∧
      (resumeLoop room objects c).2 ⊆ objects := by
  induction objects generalizing c with
  | nil => exact ⟨.refl, rfl, List.nil_subset _⟩
  | cons object rest ih =>
      have hmem : object ∈ c.feeding := hobjects List.mem_cons_self
      have hrest : rest ⊆ c.feeding := List.subset_of_cons_subset hobjects
      unfold resumeLoop
      split
      · obtain ⟨hsteps, hsame, hsub⟩ := ih (c.modify object fun stream =>
          { stream with feed := none }) hserver hrest
        exact ⟨.head (.unfeed c object) hsteps, hsame, List.subset_cons_of_subset _ hsub⟩
      · rename_i hopen
        have hsome : (c.lookup (c.objects object).id).isSome = true := by
          cases hl : c.lookup (c.objects object).id with
          | none => simp [hl] at hopen
          | some _ => rfl
        have hpush := pushFeed_steps (room object) c object hserver hmem hsome
        have hfeeding := pushFeed_feeding (room object) c object
        split
        · rename_i d heq
          rw [heq] at hpush hfeeding
          obtain ⟨hsteps, hsame, hsub⟩ := ih d (hpush.role.trans hserver)
            (hfeeding.symm ▸ hrest)
          exact ⟨hpush.trans hsteps, hsame.trans hfeeding, List.subset_cons_of_subset _ hsub⟩
        · rename_i d heq
          rw [heq] at hpush hfeeding
          obtain ⟨hsteps, hsame, hsub⟩ := ih d (hpush.role.trans hserver)
            (hfeeding.symm ▸ hrest)
          exact ⟨hpush.trans hsteps, hsame.trans hfeeding, List.cons_subset_cons _ hsub⟩

theorem resume_steps (c : Http2Connection) (room : Nat → Nat) (hserver : c.isServer = true) :
    Steps ⟨c, none⟩ ⟨c.resume room, none⟩ := by
  obtain ⟨hsteps, hsame, hsub⟩ :=
    resumeLoop_steps room c.feeding c hserver (List.Subset.refl _)
  unfold resume
  exact hsteps.tail (.waitingList _ _ (hsame.symm ▸ hsub))

theorem sendRequest_steps (input : List Frame) (c : Http2Connection) (request : Outgoing)
    (payload : List UInt8) (hclient : c.isServer = false) :
    Steps ⟨c, none⟩ ⟨(sendRequest input c request payload).2.2, none⟩ := by
  have hopen := Step.request c hclient
  have hid : ({ c.openStream c.nextStreamId with
      nextStreamId := c.nextStreamId + 2 }.objects c.nextObject).id = c.nextStreamId := by
    simp [openStream, remove, note]
  have hhead := Step.headers { c.openStream c.nextStreamId with nextStreamId := c.nextStreamId + 2 }
    c.nextObject (encodeBlock (requestFields request)) payload.isEmpty
  rw [hid] at hhead
  have hrole : ({ c.openStream c.nextStreamId with
      nextStreamId := c.nextStreamId + 2 }.writeHeaders c.nextStreamId
      (encodeBlock (requestFields request)) payload.isEmpty).isServer = false :=
    (writeHeaders_quiet _ _ _ _).isServer.trans hclient
  unfold sendRequest
  simp only
  split
  · exact .head hopen (.head hhead (.single (.leave _ _ hrole)))
  · have hsend := sendData_steps input ({ c.openStream c.nextStreamId with
      nextStreamId := c.nextStreamId + 2 }.writeHeaders c.nextStreamId
      (encodeBlock (requestFields request)) payload.isEmpty) c.nextObject payload true
    exact .head hopen (.head hhead (hsend.tail (.leave _ _ (hsend.role.trans hrole))))

theorem awaitResponse_steps (input : List Frame) (c : Http2Connection) (object : Nat)
    (hclient : c.isServer = false) :
    Steps ⟨c, none⟩ ⟨(awaitResponse input c object).2.2, none⟩ := by
  induction input generalizing c with
  | nil =>
      unfold awaitResponse
      split
      · exact .single (.forget c _ hclient)
      · exact .refl
  | cons wire input ih =>
      unfold awaitResponse
      split
      · exact .single (.forget c _ hclient)
      · split
        · exact .refl
        · rename_i hgoing
          split
          · exact .single (.malformed ⟨c, none⟩ wire)
          · rename_i frame hread
            have hobserve := Step.observe c wire frame hread (by simpa using hgoing) hclient
            have hrole : ((c.noteRead c.ready wire).process frame).1.isServer = false :=
              (process_role _ _).trans hclient
            simp only
            split
            · exact .head hobserve (ih _ hrole)
            · split
              · exact .head hobserve (.head (.forget _ _ hrole) (ih _ hrole))
              · exact .head hobserve (ih _ hrole)

theorem turn_steps (handler : List Event → HttpRequest → Response) (input : List Frame)
    (c : Http2Connection) (t : Turn) :
    Steps ⟨c, none⟩ ⟨(turn handler input c t).2.2, none⟩ := by
  unfold turn
  split
  · rename_i hserver
    cases t with
    | take =>
        have htake := takeFrame_steps handler input c hserver
        unfold serverTurn
        simp only
        split
        all_goals
          rename_i heq
          rw [heq] at htake
          exact htake
    | resume room => exact resume_steps c room hserver
    | drive => exact .single (.drive c)
    | sendRequest request payload => exact .refl
    | awaitResponse object => exact .refl
  · rename_i hclient
    have hrole : c.isServer = false := by simpa using hclient
    cases t with
    | sendRequest request payload => exact sendRequest_steps input c request payload hrole
    | awaitResponse object => exact awaitResponse_steps input c object hrole
    | take => exact .refl
    | resume room => exact .refl
    | drive => exact .refl

/-- What a session does is a run of the transition system. -/
theorem run_steps (handler : List Event → HttpRequest → Response) (turns : List Turn)
    (input : List Frame) (c : Http2Connection) :
    Steps ⟨c, none⟩ ⟨(run handler turns input c).2, none⟩ := by
  induction turns generalizing input c with
  | nil => exact .refl
  | cons t turns ih =>
      have hturn := turn_steps handler input c t
      unfold run
      split
      · rename_i heq
        rw [heq] at hturn
        exact hturn.trans (ih _ _)
      · rename_i heq
        rw [heq] at hturn
        exact hturn

end Zuri.Http.H2
