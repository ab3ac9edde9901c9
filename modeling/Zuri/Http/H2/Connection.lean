import Zuri.Http.H2.Frames
import Zuri.Http.H2.Request
import Mathlib.Logic.Function.Basic

/-!
One connection and the streams over it, in either role. Streams are objects that the
table of the connection, the queue of complete requests and the bodies waiting for a
window all refer to. What the connection reads, writes, decodes and hands over is kept
in a log, in the order in which it happens.
-/

namespace Zuri.Http.H2

open Frames

def initialWindow : Nat := 1048576
def maxFrameSize : Nat := 16384
def maxConcurrentStreams : Nat := 128
def headerTableSize : Nat := 4096
def windowRefillAt : Nat := 524288
def maxHeaderBlock : Nat := 262144
def maxBody : Nat := 10485760

/-- What is left of a body that waits for a window: of octets in memory, or of a file
of which so many octets are still to be sent. -/
inductive Feed where
  | bytes (left : List UInt8)
  | file (content : List UInt8) (remaining : Nat)

namespace Feed

/-- The next piece, and the feed after it. -/
def next (limit : Nat) : Feed → Option (List UInt8) × Feed
  | .bytes left =>
      if left.isEmpty then (none, .bytes left)
      else (some (left.take limit), .bytes (left.drop limit))
  | .file content remaining =>
      if remaining = 0 then (none, .file content remaining)
      else
        let chunk := content.take (min limit remaining)
        if chunk.isEmpty then (none, .file content 0)
        else (some chunk, .file (content.drop chunk.length) (remaining - chunk.length))

def isDone : Feed → Bool
  | .bytes left => left.isEmpty
  | .file _ remaining => remaining = 0

theorem next_length (limit : Nat) (feed : Feed) (piece : List UInt8)
    (h : (feed.next limit).1 = some piece) : piece.length ≤ limit := by
  cases feed with
  | bytes left =>
      simp only [next] at h
      split at h
      · cases h
      · cases h
        exact List.length_take_le _ _
  | file content remaining =>
      simp only [next] at h
      split at h
      · cases h
      · split at h
        · cases h
        · cases h
          exact Nat.le_trans (List.length_take_le _ _) (Nat.min_le_left _ _)

end Feed

structure Http2Stream where
  id : Nat
  fields : List Field := []
  data : List UInt8 := []
  ended : Bool := false
  headersDone : Bool := false
  sendWindow : Int
  consumed : Nat := 0
  trailers : List Field := []
  fragment : Option (List UInt8) := none
  feed : Option Feed := none

/-- Where a response takes its body from. -/
inductive Source where
  | body (data : List UInt8)
  | file (content : List UInt8) (length : Nat)
  | stream (chunks : List (List UInt8)) (fails : Bool)

/-- A response: its status, the fields it has once the date and the server are named,
its cookies and its body. -/
structure Response where
  status : Nat
  headers : List Field
  cookies : List Text
  source : Source

/-- What the connection does, as its log keeps it. With a frame read stand how many streams
the table holds by then, and those whose requests are complete and whose responses are not
written out. -/
inductive Event where
  | opened (id : Nat)
  | read (held : Nat) (busy : List Nat) (wire : Frame)
  | malformed (wire : Frame)
  | decoded (fields : List Field)
  | undecoded (message : String)
  | handed (id : Nat) (fields : List Field) (data : List UInt8) (request : HttpRequest)
  | wrote (frame : Frame)
  deriving DecidableEq

inductive Raised where
  | connection (message : String)
  | protocol (message : String)
  | handler

structure Http2Connection where
  isServer : Bool
  maxBodySize : Nat := maxBody
  decoder : Decoder := .new
  encoderCapacity : Nat := 4096
  objects : Nat → Http2Stream := fun _ => { id := 0, sendWindow := 0 }
  nextObject : Nat := 0
  streams : List (Nat × Nat) := []
  sendWindow : Int := 65535
  consumed : Nat := 0
  peerMaxFrame : Nat := 16384
  peerInitialWindow : Int := 65535
  peerMaxConcurrent : Nat := 100
  lastStreamId : Nat := 0
  nextStreamId : Nat
  goingAway : Bool := false
  settingsAcked : Bool := false
  pendingHeaders : Option Nat := none
  ready : List Nat := []
  driven : Bool := false
  feeding : List Nat := []
  log : List Event := []

namespace Http2Connection

def note (c : Http2Connection) (event : Event) : Http2Connection :=
  { c with log := c.log ++ [event] }

def write (c : Http2Connection) (type flags streamId : Nat) (payload : List UInt8) :
    Http2Connection :=
  c.note (.wrote ⟨type, flags, streamId, payload⟩)

def modify (c : Http2Connection) (object : Nat) (f : Http2Stream → Http2Stream) :
    Http2Connection :=
  { c with objects := Function.update c.objects object (f (c.objects object)) }

def lookup (c : Http2Connection) (id : Nat) : Option Nat := c.streams.lookup id

def remove (c : Http2Connection) (id : Nat) : Http2Connection :=
  { c with streams := c.streams.filter (fun entry => entry.1 != id) }

/-- A new stream in the table, in the place of one of the same name. -/
def openStream (c : Http2Connection) (id : Nat) : Http2Connection :=
  let stream : Http2Stream := { id := id, sendWindow := c.peerInitialWindow }
  let c := c.remove id
  { c with
    objects := Function.update c.objects c.nextObject stream
    nextObject := c.nextObject + 1
    streams := c.streams ++ [(id, c.nextObject)] }.note (.opened id)

def goAway (c : Http2Connection) (errorCode : Nat) (message : List UInt8) : Http2Connection :=
  if c.goingAway then c
  else
    { c with goingAway := true }.write GOAWAY 0 0 (encodeGoaway c.lastStreamId errorCode message)

def fail (c : Http2Connection) (errorCode : Nat) (message : String) : Http2Connection :=
  c.goAway errorCode (utf8 message.toList)

def reset (c : Http2Connection) (streamId errorCode : Nat) : Http2Connection :=
  (c.remove streamId).write RST_STREAM 0 streamId (encodeError errorCode)

def grant (c : Http2Connection) (streamId increment : Nat) : Http2Connection :=
  if increment = 0 then c else c.write WINDOW_UPDATE 0 streamId (writeU32 increment)

/-- Accounts for received data against the window of the connection. -/
def consume (c : Http2Connection) (length : Nat) : Http2Connection :=
  let c := { c with consumed := c.consumed + length }
  if windowRefillAt ≤ c.consumed then { c.grant 0 c.consumed with consumed := 0 } else c

def writeContinuations : Nat → Http2Connection → Nat → Nat → List UInt8 → Http2Connection
  | 0, c, _, _, _ => c
  | n + 1, c, streamId, limit, rest =>
      if rest.isEmpty then c
      else
        let last := (rest.drop limit).isEmpty
        writeContinuations n
          (c.write CONTINUATION (if last then FLAG_END_HEADERS else 0) streamId (rest.take limit))
          streamId limit (rest.drop limit)

def writeHeaders (c : Http2Connection) (streamId : Nat) (block : List UInt8)
    (endStream : Bool) : Http2Connection :=
  let limit := c.peerMaxFrame
  let flags := if endStream then FLAG_END_STREAM else 0
  if block.length ≤ limit then c.write HEADERS (flags ||| FLAG_END_HEADERS) streamId block
  else
    writeContinuations block.length (c.write HEADERS flags streamId (block.take limit)) streamId
      limit (block.drop limit)

/-- The part of a header block a frame brings. The stream is given once it is complete. -/
def collectHeaders (c : Http2Connection) (object : Nat) (payload : List UInt8) (frame : Frame) :
    Http2Connection × Option Nat :=
  let fragment :=
    if c.pendingHeaders.isNone then payload
    else ((c.objects object).fragment.getD []) ++ payload
  let c := c.modify object fun stream => { stream with fragment := some fragment }
  if maxHeaderBlock < fragment.length then
    (c.fail ENHANCE_YOUR_CALM "the header block is too large", none)
  else if !frame.hasFlag FLAG_END_HEADERS then ({ c with pendingHeaders := some object }, none)
  else
    let c := { c with pendingHeaders := none }
    match c.decoder.decode fragment with
    | .error e => ((c.note (.undecoded e)).fail COMPRESSION_ERROR e, none)
    | .ok (decoded, decoder) =>
        let c := ({ c with decoder := decoder }.note (.decoded decoded)).modify object
          fun stream =>
            if stream.headersDone then { stream with fragment := none, trailers := decoded }
            else { stream with fragment := none, fields := decoded, headersDone := true }
        if frame.hasFlag FLAG_END_STREAM then
          (c.modify object fun stream => { stream with ended := true }, some object)
        else (c, none)

def onHeaders (c : Http2Connection) (frame : Frame) : Http2Connection × Option Nat :=
  if frame.streamId = 0 then (c.fail PROTOCOL_ERROR "HEADERS on stream 0", none)
  else if frame.hasFlag FLAG_PRIORITY && decide (frame.payload.length < 5) then
    (c.fail FRAME_SIZE_ERROR "HEADERS is too short for its priority field", none)
  else
    let payload := if frame.hasFlag FLAG_PRIORITY then frame.payload.drop 5 else frame.payload
    match c.lookup frame.streamId with
    | some object => c.collectHeaders object payload frame
    | none =>
        if c.isServer then
          if frame.streamId % 2 = 0 ∨ frame.streamId ≤ c.lastStreamId then
            (c.fail PROTOCOL_ERROR "invalid stream identifier", none)
          else
            let c := { c with lastStreamId := frame.streamId }
            if maxConcurrentStreams ≤ c.streams.length then
              (c.reset frame.streamId REFUSED_STREAM, none)
            else (c.openStream frame.streamId).collectHeaders c.nextObject payload frame
        else (c.openStream frame.streamId).collectHeaders c.nextObject payload frame

def onContinuation (c : Http2Connection) (frame : Frame) : Http2Connection × Option Nat :=
  match c.pendingHeaders with
  | none => (c.fail PROTOCOL_ERROR "unexpected CONTINUATION", none)
  | some object =>
      if (c.objects object).id ≠ frame.streamId then
        (c.fail PROTOCOL_ERROR "unexpected CONTINUATION", none)
      else c.collectHeaders object frame.payload frame

/-- Answers an over-large body before resetting its stream. -/
def refuseBody (c : Http2Connection) (object : Nat) : Http2Connection :=
  let id := (c.objects object).id
  let block := encodeBlock [(":status".toList, "413".toList), ("content-length".toList, ['0'])]
  (c.writeHeaders id block true).reset id NO_ERROR

def onData (c : Http2Connection) (frame : Frame) : Http2Connection × Option Nat :=
  if frame.streamId = 0 then (c.fail PROTOCOL_ERROR "DATA on stream 0", none)
  else
    let found := c.lookup frame.streamId
    let c := c.consume frame.payload.length
    match found with
    | none => (c.reset frame.streamId STREAM_CLOSED, none)
    | some object =>
        let c := c.modify object fun stream =>
          { stream with
            data := stream.data ++ frame.payload
            consumed := stream.consumed + frame.payload.length }
        if c.maxBodySize < (c.objects object).data.length then (c.refuseBody object, none)
        else
          let c :=
            if windowRefillAt ≤ (c.objects object).consumed then
              (c.grant (c.objects object).id (c.objects object).consumed).modify object
                fun stream => { stream with consumed := 0 }
            else c
          if frame.hasFlag FLAG_END_STREAM then
            (c.modify object fun stream => { stream with ended := true }, some object)
          else (c, none)

/-- A change of the initial window moves the window of every open stream. -/
def shiftWindows (c : Http2Connection) (delta : Int) : Http2Connection :=
  c.streams.foldl
    (fun c entry => c.modify entry.2 fun stream =>
      { stream with sendWindow := stream.sendWindow + delta }) c

/-- One setting, and whether the connection goes on. -/
def applySetting (c : Http2Connection) (identifier value : Nat) : Http2Connection × Bool :=
  if identifier = SETTINGS_MAX_FRAME_SIZE then
    if value < 16384 ∨ 16777215 < value then
      (c.fail PROTOCOL_ERROR "SETTINGS_MAX_FRAME_SIZE is out of range", false)
    else ({ c with peerMaxFrame := value }, true)
  else if identifier = SETTINGS_INITIAL_WINDOW_SIZE then
    if 2147483647 < value then
      (c.fail FLOW_CONTROL_ERROR "SETTINGS_INITIAL_WINDOW_SIZE is too large", false)
    else
      ({ c with peerInitialWindow := value }.shiftWindows (value - c.peerInitialWindow), true)
  else if identifier = SETTINGS_MAX_CONCURRENT_STREAMS then
    ({ c with peerMaxConcurrent := value }, true)
  else if identifier = SETTINGS_HEADER_TABLE_SIZE then ({ c with encoderCapacity := value }, true)
  else (c, true)

def applySettings : List (Nat × Nat) → Http2Connection → Http2Connection × Bool
  | [], c => (c, true)
  | (identifier, value) :: rest, c =>
      match c.applySetting identifier value with
      | (c, true) => applySettings rest c
      | (c, false) => (c, false)

def onSettings (c : Http2Connection) (frame : Frame) : Http2Connection :=
  if frame.hasFlag FLAG_ACK then { c with settingsAcked := true }
  else
    match decodeSettings frame.payload with
    | .error e => c.fail FRAME_SIZE_ERROR e
    | .ok values =>
        match applySettings values c with
        | (c, true) => c.write SETTINGS FLAG_ACK 0 []
        | (c, false) => c

def onWindowUpdate (c : Http2Connection) (frame : Frame) : Http2Connection :=
  if frame.payload.length ≠ 4 then c.fail FRAME_SIZE_ERROR "WINDOW_UPDATE is not four octets"
  else
    let increment := readU32 frame.payload 0 &&& 2147483647
    if increment = 0 then
      if frame.streamId = 0 then c.fail PROTOCOL_ERROR "a zero connection window increment"
      else c.reset frame.streamId PROTOCOL_ERROR
    else if frame.streamId = 0 then { c with sendWindow := c.sendWindow + increment }
    else
      match c.lookup frame.streamId with
      | none => c
      | some object =>
          c.modify object fun stream => { stream with sendWindow := stream.sendWindow + increment }

def onPing (c : Http2Connection) (frame : Frame) : Http2Connection :=
  if frame.payload.length ≠ 8 then c.fail FRAME_SIZE_ERROR "PING is not eight octets"
  else if frame.hasFlag FLAG_ACK then c
  else c.write PING FLAG_ACK 0 frame.payload

/-- Handles one frame. The stream that became a complete request is given. -/
def process (c : Http2Connection) (frame : Frame) : Http2Connection × Option Nat :=
  if c.pendingHeaders.isSome ∧ frame.type ≠ CONTINUATION then
    (c.fail PROTOCOL_ERROR "a frame interrupted a header block", none)
  else if frame.type = HEADERS then c.onHeaders frame
  else if frame.type = CONTINUATION then c.onContinuation frame
  else if frame.type = DATA then c.onData frame
  else if frame.type = SETTINGS then (c.onSettings frame, none)
  else if frame.type = WINDOW_UPDATE then (c.onWindowUpdate frame, none)
  else if frame.type = PING then (c.onPing frame, none)
  else if frame.type = RST_STREAM then (c.remove frame.streamId, none)
  else if frame.type = GOAWAY then ({ c with goingAway := true }, none)
  else if frame.type = PUSH_PROMISE then
    (c.fail PROTOCOL_ERROR "PUSH_PROMISE is not allowed here", none)
  else if frame.type = PRIORITY then
    (if frame.payload.length ≠ 5 then c.reset frame.streamId FRAME_SIZE_ERROR else c, none)
  else (c, none)

/-- The streams of objects. -/
def idsOf (c : Http2Connection) (objects : List Nat) : List Nat :=
  objects.map fun object => (c.objects object).id

def noteRead (c : Http2Connection) (busy : List Nat) (wire : Frame) : Http2Connection :=
  c.note (.read c.streams.length (c.idsOf busy) wire)

/-- A frame read and handled, the request it completes put in the queue. -/
def receive (c : Http2Connection) (busy : List Nat) (wire frame : Frame) : Http2Connection :=
  let (c, completed) := (c.noteRead busy wire).process frame
  match completed with
  | none => c
  | some object => { c with ready := c.ready ++ [object] }

def writable (c : Http2Connection) (object : Nat) : Int :=
  min (min (c.peerMaxFrame : Int) (c.objects object).sendWindow) c.sendWindow

/-- Frames are read until the peer opens a window. Gives the error that ends the wait,
and the frames not read. -/
def awaitWindow : List Frame → Http2Connection → Nat → Option Raised × List Frame × Http2Connection
  | [], c, object =>
      if 0 < c.writable object then (none, [], c)
      else if c.goingAway then
        (some (.connection "the peer went away while the send window was closed"), [], c)
      else (some (.connection "the connection was closed"), [], c)
  | wire :: input, c, object =>
      if 0 < c.writable object then (none, wire :: input, c)
      else if c.goingAway then
        (some (.connection "the peer went away while the send window was closed"),
          wire :: input, c)
      else
        match readFrame maxFrameSize wire with
        | .error e => (some (.protocol e), input, c.note (.malformed wire))
        | .ok frame =>
            awaitWindow input (c.receive (object :: c.ready) wire frame) object

/-- One DATA frame, taken out of both windows. -/
def sendPiece (c : Http2Connection) (object : Nat) (piece : List UInt8) (last : Bool) :
    Http2Connection :=
  let c := c.write DATA (if last then FLAG_END_STREAM else 0) (c.objects object).id piece
  let c := c.modify object fun stream =>
    { stream with sendWindow := stream.sendWindow - piece.length }
  { c with sendWindow := c.sendWindow - piece.length }

/-- The loop of `sendData`. A turn sends an octet at least, so there are no more turns
than octets. -/
def sendLoop : Nat → List Frame → Http2Connection → Nat → List UInt8 → Bool →
    Option Raised × List Frame × Http2Connection
  | 0, input, c, _, _, _ => (none, input, c)
  | n + 1, input, c, object, data, endStream =>
      if data.isEmpty then (none, input, c)
      else
        match awaitWindow input c object with
        | (some raised, input, c) => (some raised, input, c)
        | (none, input, c) =>
            let take := min data.length (c.writable object).toNat
            let rest := data.drop take
            sendLoop n input (c.sendPiece object (data.take take) (endStream && rest.isEmpty))
              object rest endStream

def finishData (c : Http2Connection) (object : Nat) : Http2Connection :=
  c.write DATA FLAG_END_STREAM (c.objects object).id []

def sendData (input : List Frame) (c : Http2Connection) (object : Nat) (data : List UInt8)
    (endStream : Bool) : Option Raised × List Frame × Http2Connection :=
  match sendLoop data.length input c object data endStream with
  | (some raised, input, c) => (some raised, input, c)
  | (none, input, c) =>
      (none, input, if endStream && data.isEmpty then c.finishData object else c)

/-- A file a part at a time. -/
def sendFileLoop : Nat → List Frame → Http2Connection → Nat → List UInt8 → Nat →
    Option Raised × List Frame × Http2Connection
  | 0, input, c, _, _, _ => (none, input, c)
  | n + 1, input, c, object, content, remaining =>
      if remaining = 0 then (none, input, c)
      else
        let chunk := content.take (min remaining 65536)
        if chunk.isEmpty then (none, input, c)
        else
          let left := remaining - chunk.length
          match sendData input c object chunk (decide (left = 0)) with
          | (some raised, input, c) => (some raised, input, c)
          | (none, input, c) =>
              sendFileLoop n input c object (content.drop chunk.length) left

/-- Leaves a body to go out as the windows open. -/
def park (c : Http2Connection) (object : Nat) (feed : Feed) : Http2Connection :=
  let c := c.modify object fun stream => { stream with feed := some feed }
  { c with feeding := c.feeding ++ [object] }

def sendBody (input : List Frame) (c : Http2Connection) (object : Nat) (body : List UInt8) :
    Option Raised × List Frame × Http2Connection :=
  if c.driven && decide (c.writable object < body.length) then
    (none, input, c.park object (.bytes body))
  else sendData input c object body true

def sendFile (input : List Frame) (c : Http2Connection) (object : Nat) (content : List UInt8)
    (length : Nat) : Option Raised × List Frame × Http2Connection :=
  if c.driven then (none, input, c.park object (.file content length))
  else sendFileLoop length input c object content length

/-- What a handler writes to its writer, piece by piece. -/
def sendChunks : List (List UInt8) → List Frame → Http2Connection → Nat →
    Option Raised × List Frame × Http2Connection
  | [], input, c, _ => (none, input, c)
  | chunk :: chunks, input, c, object =>
      if chunk.isEmpty then sendChunks chunks input c object
      else
        match sendData input c object chunk false with
        | (some raised, input, c) => (some raised, input, c)
        | (none, input, c) => sendChunks chunks input c object

def sendStream (input : List Frame) (c : Http2Connection) (object : Nat)
    (chunks : List (List UInt8)) (fails : Bool) : Option Raised × List Frame × Http2Connection :=
  match sendChunks chunks input c object with
  | (some raised, input, c) => (some raised, input, c.reset (c.objects object).id INTERNAL_ERROR)
  | (none, input, c) =>
      if fails then (some .handler, input, c.reset (c.objects object).id INTERNAL_ERROR)
      else sendData input c object [] true

def isBodiless (status : Nat) : Bool :=
  (100 ≤ status && status ≤ 199) || status == 204 || status == 304

def numberText (n : Nat) : Text := (toString n).toList

def responseFields (response : Response) : List Field :=
  [(":status".toList, numberText response.status)] ++
    ((response.headers.map fun field => (lower field.1, field.2)).filter fun field =>
      !forbidden.contains field.1 && field.1 != "content-length".toList) ++
    (match response.source with
      | .body data => [("content-length".toList, numberText data.length)]
      | .file _ length => [("content-length".toList, numberText length)]
      | .stream _ _ => []) ++
    response.cookies.map fun cookie => ("set-cookie".toList, cookie)

def endsAtHeaders (request : HttpRequest) (response : Response) : Bool :=
  isBodiless response.status || request.method == "HEAD".toList ||
    match response.source with
    | .body data => data.isEmpty
    | .file _ _ | .stream _ _ => false

def writeResponse (input : List Frame) (c : Http2Connection) (object : Nat)
    (request : HttpRequest) (response : Response) :
    Option Raised × List Frame × Http2Connection :=
  let endStream := endsAtHeaders request response
  let c := c.writeHeaders (c.objects object).id (encodeBlock (responseFields response)) endStream
  if endStream then (none, input, c)
  else
    match response.source with
    | .body data => sendBody input c object data
    | .file content length => sendFile input c object content length
    | .stream chunks fails => sendStream input c object chunks fails

/-- The handler gives the response to a request, after the requests before it. -/
def answer (handler : List Event → HttpRequest → Response) (input : List Frame)
    (c : Http2Connection) (object : Nat) : Option Raised × List Frame × Http2Connection :=
  match toRequest (c.objects object).fields (c.objects object).data with
  | .error _ => (none, input, c.reset (c.objects object).id PROTOCOL_ERROR)
  | .ok request =>
      let c := c.note
        (.handed (c.objects object).id (c.objects object).fields (c.objects object).data request)
      let (raised, input, c) := writeResponse input c object request (handler c.log request)
      (raised, input,
        if (c.objects object).feed.isNone then c.remove (c.objects object).id else c)

/-- Answers the queue of complete requests, which grows while a body waits. -/
def answerAll (handler : List Event → HttpRequest → Response) :
    Nat → List Frame → Http2Connection → Option Raised × List Frame × Http2Connection
  | 0, input, c => (none, input, c)
  | n + 1, input, c =>
      match c.ready with
      | [] => (none, input, c)
      | object :: ready =>
          match answer handler input { c with ready := ready } object with
          | (some raised, input, c) => (some raised, input, c)
          | (none, input, c) => answerAll handler n input c

/-- How a turn of the frame loop ends. -/
inductive Turned where
  | goesOn
  | done
  | raised (error : Raised)

/-- Reads and acts on one frame. -/
def takeFrame (handler : List Event → HttpRequest → Response) (input : List Frame)
    (c : Http2Connection) : Turned × List Frame × Http2Connection :=
  match input with
  | [] => (.done, [], c)
  | wire :: input =>
      match readFrame maxFrameSize wire with
      | .error e => (.done, input, (c.note (.malformed wire)).fail PROTOCOL_ERROR e)
      | .ok frame =>
          if c.goingAway then (.done, input, c.noteRead c.ready wire)
          else
            let c := c.receive c.ready wire frame
            match answerAll handler (c.ready.length + input.length) input c with
            | (some error, input, c) => (.raised error, input, c)
            | (none, input, c) => (.goesOn, input, c)

def finishFeed (c : Http2Connection) (object : Nat) : Http2Connection :=
  (c.modify object fun stream => { stream with feed := none }).remove (c.objects object).id

/-- Sends of a waiting body what the windows allow, until the output is heavy. Whether
all of it went. -/
def pushFeed : Nat → Http2Connection → Nat → Http2Connection × Bool
  | 0, c, _ => (c, false)
  | room + 1, c, object =>
      match (c.objects object).feed with
      | none => (c, false)
      | some feed =>
          if c.writable object ≤ 0 then (c, false)
          else
            match feed.next (c.writable object).toNat with
            | (none, left) =>
                (((c.modify object fun stream => { stream with feed := some left }).finishData
                  object).finishFeed object, true)
            | (some piece, left) =>
                let c := c.modify object fun stream => { stream with feed := some left }
                let c := c.sendPiece object piece left.isDone
                if left.isDone then (c.finishFeed object, true) else pushFeed room c object

def resumeLoop (room : Nat → Nat) : List Nat → Http2Connection → Http2Connection × List Nat
  | [], c => (c, [])
  | object :: rest, c =>
      if (c.lookup (c.objects object).id).isNone then
        resumeLoop room rest (c.modify object fun stream => { stream with feed := none })
      else
        match pushFeed (room object) c object with
        | (c, true) => resumeLoop room rest c
        | (c, false) =>
            let (c, waiting) := resumeLoop room rest c
            (c, object :: waiting)

/-- Sends of the waiting bodies what can go; `room` says how much output each finds. -/
def resume (c : Http2Connection) (room : Nat → Nat) : Http2Connection :=
  let (c, waiting) := resumeLoop room c.feeding c
  { c with feeding := waiting }

def drive (c : Http2Connection) : Http2Connection := { c with driven := true }

/-- A request to send: its pseudo-headers, its fields and its `Host`. -/
structure Outgoing where
  method : Text
  scheme : Text
  target : Text
  authority : Option Text
  host : Option Text
  headers : List Field

def requestFields (request : Outgoing) : List Field :=
  [(":method".toList, request.method), (":scheme".toList, request.scheme),
    (":authority".toList,
      ((request.authority.filter fun text => !text.isEmpty).or request.host).getD []),
    (":path".toList, request.target)] ++
    ((request.headers.map fun field => (lower field.1, field.2)).filter fun field =>
      field.1 != "host".toList && !forbidden.contains field.1)

def sendRequest (input : List Frame) (c : Http2Connection) (request : Outgoing)
    (payload : List UInt8) : Option Raised × List Frame × Http2Connection :=
  let object := c.nextObject
  let id := c.nextStreamId
  let c := { c.openStream id with nextStreamId := id + 2 }
  let c := c.writeHeaders id (encodeBlock (requestFields request)) payload.isEmpty
  if payload.isEmpty then (none, input, c) else sendData input c object payload true

/-- Reads frames until a stream is finished. -/
def awaitResponse : List Frame → Http2Connection → Nat →
    Option Raised × List Frame × Http2Connection
  | [], c, object =>
      if (c.objects object).ended then (none, [], c.remove (c.objects object).id)
      else (some (.connection "the connection went away before the response finished"), [], c)
  | wire :: input, c, object =>
      if (c.objects object).ended then (none, wire :: input, c.remove (c.objects object).id)
      else if c.goingAway then
        (some (.connection "the connection went away before the response finished"),
          wire :: input, c)
      else
        match readFrame maxFrameSize wire with
        | .error e => (some (.protocol e), input, c.note (.malformed wire))
        | .ok frame =>
            let (c, completed) := (c.noteRead c.ready wire).process frame
            match completed with
            | none => awaitResponse input c object
            | some other =>
                if (c.objects other).id ≠ (c.objects object).id then
                  awaitResponse input (c.remove (c.objects other).id) object
                else awaitResponse input c object

def ownSettings : List (Nat × Nat) :=
  [(1, headerTableSize), (2, 0), (3, maxConcurrentStreams), (4, initialWindow), (5, maxFrameSize),
    (6, 262144)]

def sendSettings (c : Http2Connection) : Http2Connection :=
  (c.write SETTINGS 0 0 (encodeSettings ownSettings)).write WINDOW_UPDATE 0 0
    (writeU32 (initialWindow - 65535))

/-- A connection whose preface has gone, its settings sent. -/
def start (isServer : Bool) (maxBodySize : Nat) : Http2Connection :=
  sendSettings
    { isServer := isServer, maxBodySize := maxBodySize, nextStreamId := if isServer then 2 else 1 }

/-- What drives a connection: the frame loop or a readiness loop of a server, or a client. -/
inductive Turn where
  | take
  | resume (room : Nat → Nat)
  | drive
  | sendRequest (request : Outgoing) (payload : List UInt8)
  | awaitResponse (object : Nat)

def serverTurn (handler : List Event → HttpRequest → Response) (input : List Frame)
    (c : Http2Connection) : Turn → Bool × List Frame × Http2Connection
  | .take =>
      match takeFrame handler input c with
      | (.goesOn, input, c) => (true, input, c)
      | (.done, input, c) => (!c.feeding.isEmpty, input, c)
      | (.raised _, input, c) => (false, input, c)
  | .resume room => (true, input, c.resume room)
  | .drive => (true, input, c.drive)
  | .sendRequest _ _ | .awaitResponse _ => (true, input, c)

def clientTurn (input : List Frame) (c : Http2Connection) :
    Turn → Bool × List Frame × Http2Connection
  | .sendRequest request payload =>
      match sendRequest input c request payload with
      | (raised, input, c) => (raised.isNone, input, c)
  | .awaitResponse object =>
      match awaitResponse input c object with
      | (raised, input, c) => (raised.isNone, input, c)
  | .take | .resume _ | .drive => (true, input, c)

/-- A turn of its own role, and whether the session goes on after it. -/
def turn (handler : List Event → HttpRequest → Response) (input : List Frame)
    (c : Http2Connection) (t : Turn) : Bool × List Frame × Http2Connection :=
  if c.isServer then serverTurn handler input c t else clientTurn input c t

/-- The turns of a session, as far as it goes on. -/
def run (handler : List Event → HttpRequest → Response) :
    List Turn → List Frame → Http2Connection → List Frame × Http2Connection
  | [], input, c => (input, c)
  | t :: turns, input, c =>
      match turn handler input c t with
      | (true, input, c) => run handler turns input c
      | (false, input, c) => (input, c)

end Http2Connection

end Zuri.Http.H2
