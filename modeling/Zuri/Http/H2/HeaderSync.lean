import Zuri.Http.H2.Handlers
import Zuri.Http.H2.HpackInStep
import Zuri.Http.H2.Session
import Zuri.Transition.Log

/-!
Header compression over a whole connection. An encoder writes its blocks one after the
other; a reading of the log puts the octets of each together again and keeps the table
the protocol prescribes. The decoder of the connection is in step with it where every
block keeps to what the decoder can follow, and no block that changes the table belongs
to a stream that is refused.
-/

namespace Zuri.Http.H2

open Frames Http2Connection Transition Eviction

/-- What the protocol makes of the frames read: the table, the block that is open and
whether its stream is refused, the blocks the encoder has yet to finish, what the kept
blocks meant, and whether one of them was too long a list. -/
structure HeaderReading where
  table : HeaderTable := .initial
  block : Option (Bool × List UInt8) := none
  blocks : List (List Representation)
  meant : List (List OctetField) := []
  exceeds : Bool := false
  lastId : Nat := 0

namespace HeaderReading

/-- Whether a HEADERS frame opens a stream a server has no room for. -/
def refuses (reading : HeaderReading) (isServer : Bool) (held : Nat) (frame : Frame) : Bool :=
  isServer && decide (reading.lastId < frame.streamId) && decide (maxConcurrentStreams ≤ held)

/-- The block with the part a frame brings. -/
def joined (reading : HeaderReading) (isServer : Bool) (held : Nat) (frame : Frame) :
    Option (Bool × List UInt8) :=
  if frame.type = HEADERS then
    some (reading.refuses isServer held frame, headerFragment frame)
  else if frame.type = CONTINUATION then
    reading.block.map fun block => (block.1, block.2 ++ frame.payload)
  else none

def finish (reading : HeaderReading) (refused : Bool) : HeaderReading :=
  match reading.blocks with
  | [] => { reading with block := none }
  | reps :: rest =>
      match applyAll reading.table reps with
      | none => { reading with block := none, blocks := rest }
      | some (last, fields) =>
          if refused then { reading with table := last, block := none, blocks := rest }
          else
            { reading with
              table := last, block := none, blocks := rest, meant := reading.meant ++ [fields]
              exceeds := reading.exceeds || decide (262144 < total fieldSize fields) }

def named (reading : HeaderReading) (frame : Frame) : HeaderReading :=
  if frame.type = HEADERS then { reading with lastId := max reading.lastId frame.streamId }
  else reading

def extend (reading : HeaderReading) (refused : Bool) (octets : List UInt8) (ends : Bool) :
    HeaderReading :=
  if ends then reading.finish refused else { reading with block := some (refused, octets) }

def take (reading : HeaderReading) (isServer : Bool) (held : Nat) (frame : Frame) :
    HeaderReading :=
  match reading.joined isServer held frame with
  | none => reading
  | some (refused, octets) =>
      (reading.named frame).extend refused octets (frame.hasFlag FLAG_END_HEADERS)

def hear (isServer : Bool) (reading : HeaderReading) : Event → HeaderReading
  | .read held _ wire =>
      match readFrame maxFrameSize wire with
      | .ok frame => reading.take isServer held frame
      | .error _ => reading
  | _ => reading

end HeaderReading

/-- A block is not interrupted, and once whole it is the next one the encoder wrote, valid
at the table the protocol prescribes. -/
def Encoded (isServer : Bool) (reading : HeaderReading) : Event → Prop
  | .read held _ wire =>
      ∀ frame, readFrame maxFrameSize wire = .ok frame →
        (reading.block.isSome = true → frame.type = CONTINUATION) ∧
        ∀ refused octets, reading.joined isServer held frame = some (refused, octets) →
          frame.hasFlag FLAG_END_HEADERS = true →
          ∃ reps rest, reading.blocks = reps :: rest ∧ wireBlock reps = octets ∧
            (applyAll reading.table reps).isSome = true
  | _ => True

/-- The strings of the block are text, the entries it makes are ASCII, nothing is dropped
on the way that fits at its end, and a list that is too long is so by its last literal. -/
structure Followed (table : HeaderTable) (reps : List Representation) (last : HeaderTable)
    (fields : List OctetField) : Prop where
  legible : EveryRep (fun table rep => rep.Legible 32768 table) table reps
  ascii : ∀ field ∈ entersAll table reps, AsciiField field
  settles : Settles table reps last
  listed : withinLimit 262144 table reps 0 = true → total fieldSize fields ≤ 262144

/-- A whole block is one the decoder follows, or leaves the table as it is when its stream
is refused. -/
def Follows (isServer : Bool) (reading : HeaderReading) : Event → Prop
  | .read held _ wire =>
      ∀ frame, readFrame maxFrameSize wire = .ok frame →
        ∀ refused octets, reading.joined isServer held frame = some (refused, octets) →
          frame.hasFlag FLAG_END_HEADERS = true →
          ∀ reps rest last fields, reading.blocks = reps :: rest →
            applyAll reading.table reps = some (last, fields) →
            if refused then last = reading.table else Followed reading.table reps last fields
  | _ => True

/-- The fields of the blocks decoded, in octets. -/
def decodedOf (log : List Event) : List (List OctetField) :=
  log.filterMap fun
    | .decoded fields => some (fields.map octetField)
    | _ => none

def Undecoded (log : List Event) : Prop := ∃ message, Event.undecoded message ∈ log

/-- The decoder holds the table the protocol prescribes and has read the fields that were
meant, as long as the connection goes on; no list over the limit is read, and no block is
given up but for the limit. -/
structure HeadersInStep (reading : HeaderReading) (c : Http2Connection) : Prop where
  inStep : c.goingAway = false → InStep c.decoder reading.table
  decoded : c.goingAway = false → decodedOf c.log = reading.meant
  read : decodedOf c.log <+: reading.meant
  limit : ∀ fields ∈ decodedOf c.log, total fieldSize fields ≤ 262144
  errors : Undecoded c.log → reading.exceeds = true

namespace HeaderReading

/-- What was meant stays meant. -/
structure Grows (before after : HeaderReading) : Prop where
  meant : before.meant <+: after.meant
  exceeds : before.exceeds = true → after.exceeds = true

theorem Grows.refl (reading : HeaderReading) : Grows reading reading :=
  ⟨List.prefix_rfl, id⟩

theorem finish_grows (reading : HeaderReading) (refused : Bool) :
    Grows reading (reading.finish refused) := by
  unfold finish
  split
  · exact ⟨List.prefix_rfl, id⟩
  · split
    · exact ⟨List.prefix_rfl, id⟩
    · split
      · exact ⟨List.prefix_rfl, id⟩
      · exact ⟨List.prefix_append _ _, fun h => by simp [h]⟩

theorem named_grows (reading : HeaderReading) (frame : Frame) :
    Grows reading (reading.named frame) := by
  unfold named
  split <;> exact ⟨List.prefix_rfl, id⟩

theorem extend_grows (reading : HeaderReading) (refused : Bool) (octets : List UInt8)
    (ends : Bool) : Grows reading (reading.extend refused octets ends) := by
  unfold extend
  split
  · exact finish_grows reading refused
  · exact ⟨List.prefix_rfl, id⟩

theorem Grows.trans {a b c : HeaderReading} (h : Grows a b) (k : Grows b c) : Grows a c :=
  ⟨h.meant.trans k.meant, fun ho => k.exceeds (h.exceeds ho)⟩

theorem take_grows (reading : HeaderReading) (isServer : Bool) (held : Nat) (frame : Frame) :
    Grows reading (reading.take isServer held frame) := by
  unfold take
  split
  · exact .refl reading
  · exact (named_grows reading frame).trans (extend_grows _ _ _ _)

theorem hear_grows (reading : HeaderReading) (isServer : Bool) (event : Event) :
    Grows reading (reading.hear isServer event) := by
  cases event with
  | read held busy wire =>
      cases hread : readFrame maxFrameSize wire with
      | error _ =>
          simp only [hear, hread]
          exact .refl reading
      | ok frame =>
          simp only [hear, hread]
          exact take_grows _ _ _ _
  | opened _ | malformed _ | decoded _ | undecoded _ | handed _ _ _ _ | wrote _ =>
      exact .refl reading

end HeaderReading

theorem lt_total_of_withinLimit (ml : Nat) (reps : List Representation)
    (table last : HeaderTable) (fields : List OctetField) (listed : Nat)
    (happly : applyAll table reps = some (last, fields))
    (h : withinLimit ml table reps listed = false) : ml < listed + total fieldSize fields := by
  induction reps generalizing table fields listed with
  | nil => cases h
  | cons rep reps ih =>
      simp only [applyAll] at happly
      simp only [withinLimit] at h
      cases hr : rep.apply table with
      | none => simp [hr] at happly
      | some result =>
          obtain ⟨next, first⟩ := result
          simp only [hr] at happly h
          obtain ⟨⟨_, more⟩, hrest, heq⟩ := Option.map_eq_some_iff.mp happly
          cases heq
          rw [total_append]
          rcases Bool.and_eq_false_iff.mp h with hfirst | hmore
          · simp at hfirst
            omega
          · have hlt := ih next more _ hrest hmore
            simp only
            omega

/-- Events that neither bring a part of a block nor say how one was decoded. -/
def Event.Silent : Event → Prop
  | .read _ _ _ | .decoded _ | .undecoded _ => False
  | .opened _ | .malformed _ | .handed _ _ _ _ | .wrote _ => True

def Event.Unread : Event → Prop
  | .read _ _ _ => False
  | .opened _ | .malformed _ | .decoded _ | .undecoded _ | .handed _ _ _ _ | .wrote _ => True

theorem Event.Silent.unread {event : Event} (h : event.Silent) : event.Unread := by
  cases event with
  | read _ _ _ => exact h
  | opened _ | malformed _ | decoded _ | undecoded _ | handed _ _ _ _ | wrote _ => trivial

theorem hear_unread (isServer : Bool) (events : List Event) (reading : HeaderReading)
    (h : ∀ event ∈ events, event.Unread) :
    events.foldl (HeaderReading.hear isServer) reading = reading := by
  induction events with
  | nil => rfl
  | cons event events ih =>
      have hevent := h event List.mem_cons_self
      have hstay : reading.hear isServer event = reading := by
        cases event with
        | read _ _ _ => cases hevent
        | opened _ | malformed _ | decoded _ | undecoded _ | handed _ _ _ _ | wrote _ => rfl
      rw [List.foldl_cons, hstay]
      exact ih fun other ho => h other (List.mem_cons_of_mem _ ho)

theorem decodedOf_silent (log events : List Event) (h : ∀ event ∈ events, event.Silent) :
    decodedOf (log ++ events) = decodedOf log := by
  have hnone : decodedOf events = [] := by
    unfold decodedOf
    apply List.filterMap_eq_nil_iff.mpr
    intro event he
    have hevent := h event he
    cases event with
    | read _ _ _ | decoded _ | undecoded _ => cases hevent
    | opened _ | malformed _ | handed _ _ _ _ | wrote _ => rfl
  unfold decodedOf at hnone ⊢
  rw [List.filterMap_append, hnone, List.append_nil]

theorem undecoded_silent (log events : List Event) (h : ∀ event ∈ events, event.Silent)
    (hu : Undecoded (log ++ events)) : Undecoded log := by
  obtain ⟨message, hm⟩ := hu
  rcases List.mem_append.mp hm with hm | hm
  · exact ⟨message, hm⟩
  · exact (h _ hm).elim

/-- The second state comes out of the first without a part of a block being read. -/
structure Untouched (c d : Http2Connection) : Prop where
  isServer : d.isServer = c.isServer
  decoder : d.decoder = c.decoder
  pendingHeaders : d.pendingHeaders = c.pendingHeaders
  lastStreamId : d.lastStreamId = c.lastStreamId
  nextObject : c.nextObject ≤ d.nextObject
  streams : ∀ entry ∈ d.streams,
    entry ∈ c.streams ∨ (c.isServer = false ∧ entry.2 < d.nextObject)
  fragment : ∀ object < c.nextObject, (d.objects object).fragment = (c.objects object).fragment
  log : ∃ events, d.log = c.log ++ events ∧ ∀ event ∈ events, event.Silent
  goingAway : c.goingAway = true → d.goingAway = true

theorem Http2Connection.Quiet.untouched {c d : Http2Connection} (h : Quiet c d) : Untouched c d where
  isServer := h.isServer
  decoder := h.decoder
  pendingHeaders := h.pendingHeaders
  lastStreamId := h.lastStreamId
  nextObject := Nat.le_of_eq h.nextObject.symm
  streams := fun entry he => .inl (h.streams.subset he)
  fragment := fun object _ => (h.objects object).fragment
  log := by
    obtain ⟨frames, hlog⟩ := h.log
    refine ⟨_, hlog, ?_⟩
    intro event he
    obtain ⟨frame, _, rfl⟩ := List.mem_map.mp he
    trivial
  goingAway := h.goingAway

theorem Untouched.refl (c : Http2Connection) : Untouched c c := (Quiet.refl c).untouched

theorem Untouched.trans {c d e : Http2Connection} (h : Untouched c d) (k : Untouched d e) :
    Untouched c e where
  isServer := k.isServer.trans h.isServer
  decoder := k.decoder.trans h.decoder
  pendingHeaders := k.pendingHeaders.trans h.pendingHeaders
  lastStreamId := k.lastStreamId.trans h.lastStreamId
  nextObject := Nat.le_trans h.nextObject k.nextObject
  streams := by
    intro entry he
    rcases k.streams entry he with he | ⟨hclient, hlt⟩
    · rcases h.streams entry he with he | ⟨hclient, hlt⟩
      · exact .inl he
      · exact .inr ⟨hclient, Nat.lt_of_lt_of_le hlt k.nextObject⟩
    · exact .inr ⟨h.isServer ▸ hclient, hlt⟩
  fragment := fun object ho =>
    (k.fragment object (Nat.lt_of_lt_of_le ho h.nextObject)).trans (h.fragment object ho)
  log := by
    obtain ⟨first, hfirst, hsilent⟩ := h.log
    obtain ⟨more, hmore, ksilent⟩ := k.log
    refine ⟨first ++ more, by rw [hmore, hfirst, List.append_assoc], ?_⟩
    intro event he
    rcases List.mem_append.mp he with he | he
    · exact hsilent event he
    · exact ksilent event he
  goingAway := fun hg => k.goingAway (h.goingAway hg)

/-- An object changed, its part of a block as it was. -/
theorem modify_untouched (c : Http2Connection) (object : Nat) (f : Http2Stream → Http2Stream)
    (h : (f (c.objects object)).fragment = (c.objects object).fragment) :
    Untouched c (c.modify object f) where
  isServer := rfl
  decoder := rfl
  pendingHeaders := rfl
  lastStreamId := rfl
  nextObject := Nat.le_refl _
  streams := fun entry he => .inl he
  fragment := by
    intro other _
    by_cases ho : other = object
    · subst ho
      simpa [Http2Connection.modify] using h
    · simp [Http2Connection.modify, ho]
  log := ⟨[], by simp [Http2Connection.modify], by simp⟩
  goingAway := id

theorem note_untouched (c : Http2Connection) (event : Event) (h : event.Silent) :
    Untouched c (c.note event) where
  isServer := rfl
  decoder := rfl
  pendingHeaders := rfl
  lastStreamId := rfl
  nextObject := Nat.le_refl _
  streams := fun entry he => .inl he
  fragment := fun _ _ => rfl
  log := ⟨[event], rfl, by simpa using h⟩
  goingAway := id

/-- The queues changed alone. -/
theorem queues_untouched (c : Http2Connection) (ready feeding : List Nat) (driven : Bool) :
    Untouched c { c with ready := ready, feeding := feeding, driven := driven } where
  isServer := rfl
  decoder := rfl
  pendingHeaders := rfl
  lastStreamId := rfl
  nextObject := Nat.le_refl _
  streams := fun entry he => .inl he
  fragment := fun _ _ => rfl
  log := ⟨[], (List.append_nil _).symm, by simp⟩
  goingAway := id

theorem openStream_untouched (c : Http2Connection) (id next : Nat) (hclient : c.isServer = false) :
    Untouched c { c.openStream id with nextStreamId := next } where
  isServer := rfl
  decoder := rfl
  pendingHeaders := rfl
  lastStreamId := rfl
  nextObject := Nat.le_succ _
  streams := by
    intro entry he
    rcases List.mem_append.mp he with he | he
    · exact .inl (List.mem_filter.mp he).1
    · cases List.mem_singleton.mp he
      exact .inr ⟨hclient, Nat.lt_succ_self _⟩
  fragment := by
    intro object ho
    simp [openStream, remove, note, Nat.ne_of_lt ho]
  log := ⟨[.opened id], rfl, by simp [Event.Silent]⟩
  goingAway := fun h => h

theorem refill_untouched (c : Http2Connection) (object : Nat) :
    Untouched c (c.refill object) := by
  unfold refill
  split
  · exact (grant_quiet _ _ _).untouched.trans (modify_untouched _ object _ rfl)
  · exact .refl c

theorem markEnded_untouched (c : Http2Connection) (object : Nat) (ends : Bool) :
    Untouched c (c.markEnded object ends) := by
  unfold markEnded
  split
  · exact modify_untouched c object _ rfl
  · exact .refl c

theorem Http2Connection.DataTaken.untouched {c : Http2Connection} {frame : Frame}
    {result : Http2Connection × Option Nat} (h : DataTaken c frame result) :
    Untouched c result.1 := by
  have hconsume := (consume_quiet c frame.payload.length).untouched
  have hreceived : ∀ object, Untouched c
      ((c.consume frame.payload.length).received object frame.payload) :=
    fun object => hconsume.trans (modify_untouched _ object _ rfl)
  cases h with
  | streamZero hid => exact (fail_quiet _ _ _).untouched
  | unknown hid hlookup => exact hconsume.trans (reset_quiet _ _ _).untouched
  | large hid object hlookup hlong =>
      exact (hreceived object).trans (refuseBody_quiet _ _).untouched
  | kept hid object hlookup hfits =>
      exact ((hreceived object).trans (refill_untouched _ _)).trans (markEnded_untouched _ _ _)

/-- The log grows, and not by frames read. -/
def Unread (c d : Http2Connection) : Prop :=
  ∃ events, d.log = c.log ++ events ∧ ∀ event ∈ events, event.Unread

theorem Unread.refl (c : Http2Connection) : Unread c c :=
  ⟨[], (List.append_nil _).symm, by simp⟩

theorem Unread.trans {c d e : Http2Connection} (h : Unread c d) (k : Unread d e) : Unread c e := by
  obtain ⟨first, hfirst, hunread⟩ := h
  obtain ⟨more, hmore, kunread⟩ := k
  refine ⟨first ++ more, by rw [hmore, hfirst, List.append_assoc], ?_⟩
  intro event he
  rcases List.mem_append.mp he with he | he
  · exact hunread event he
  · exact kunread event he

theorem Unread.note (c : Http2Connection) (event : Event) (h : event.Unread) :
    Unread c (c.note event) :=
  ⟨[event], rfl, by simpa using h⟩

theorem Untouched.unread {c d : Http2Connection} (h : Untouched c d) : Unread c d := by
  obtain ⟨events, hlog, hsilent⟩ := h.log
  exact ⟨events, hlog, fun event he => (hsilent event he).unread⟩

theorem Http2Connection.Collected.unread {c : Http2Connection} {object : Nat}
    {payload : List UInt8} {frame : Frame} {result : Http2Connection × Option Nat}
    (h : Collected c object payload frame result) : Unread c result.1 := by
  have hset : Unread c (c.withFragment object (c.gathered object payload)) := .refl c
  cases h with
  | large hlong => exact hset.trans (fail_quiet _ _ _).untouched.unread
  | part hlong hends => exact .refl c
  | garbled hlong hends e hdecode =>
      have hnote := Unread.note { c.withFragment object (c.gathered object payload) with
        pendingHeaders := none } (.undecoded e) trivial
      exact hnote.trans (fail_quiet _ _ _).untouched.unread
  | whole hlong hends decoded decoder hdecode =>
      exact Unread.note { c.withFragment object (c.gathered object payload) with
        pendingHeaders := none, decoder := decoder } (.decoded decoded) trivial

theorem process_unread (c : Http2Connection) (frame : Frame) : Unread c (c.process frame).1 := by
  have h := process_processed c frame
  generalize c.process frame = result at h
  cases h with
  | interrupted hpending htype => exact (fail_quiet _ _ _).untouched.unread
  | headers hpending htype result htaken =>
      cases htaken with
      | streamZero hid => exact (fail_quiet _ _ _).untouched.unread
      | short hid hpriority hshort => exact (fail_quiet _ _ _).untouched.unread
      | known hid object hlookup result hcollected => exact hcollected.unread
      | invalid hid hlookup hserver hold => exact (fail_quiet _ _ _).untouched.unread
      | refused hid hlookup hserver hnew hfull =>
          exact (reset_quiet { c with lastStreamId := frame.streamId } _ _).untouched.unread
      | fresh hid hlookup hserver hnew hroom result hcollected =>
          exact (Unread.note c (.opened frame.streamId) trivial).trans hcollected.unread
      | response hid hlookup hclient result hcollected =>
          exact (Unread.note c (.opened frame.streamId) trivial).trans hcollected.unread
  | continuation htype result htaken =>
      cases htaken with
      | unexpected hother => exact (fail_quiet _ _ _).untouched.unread
      | more object hobject hid result hcollected => exact hcollected.unread
  | data hpending htype result htaken => exact htaken.untouched.unread
  | settings hpending htype => exact (onSettings_quiet _ _).untouched.unread
  | windowUpdate hpending htype => exact (onWindowUpdate_quiet _ _).untouched.unread
  | ping hpending htype => exact (onPing_quiet _ _).untouched.unread
  | resetStream hpending htype => exact (remove_quiet _ _).untouched.unread
  | goaway hpending htype => exact (goingAway_quiet _).untouched.unread
  | pushPromise hpending htype => exact (fail_quiet _ _ _).untouched.unread
  | priority hpending htype hsize => exact (reset_quiet _ _ _).untouched.unread
  | ignored _ _ _ _ _ _ _ _ => exact .refl c

end Zuri.Http.H2
