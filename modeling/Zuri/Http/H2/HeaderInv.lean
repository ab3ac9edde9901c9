import Zuri.Http.H2.HeaderSync

/-!
Along every run whose blocks the decoder follows, the decoder of the connection and the
table the protocol prescribes stay in step.
-/

namespace Zuri.Http.H2

open Frames Http2Connection Transition Eviction

/-- The open block of a stream that is not refused waits at its object. -/
structure BlockHeld (block : Option (Bool × List UInt8)) (c : Http2Connection) : Prop where
  closed : block = none → c.pendingHeaders = none
  refused : ∀ octets, block = some (true, octets) → c.pendingHeaders = none
  kept : ∀ octets, block = some (false, octets) →
    ∃ object, c.pendingHeaders = some object ∧ (c.objects object).fragment = some octets

structure HeaderInv (reading : HeaderReading) (c : Http2Connection) : Prop
    extends HeadersInStep reading c where
  known : ∀ entry ∈ c.streams,
    entry.2 < c.nextObject ∧ (c.isServer = true → entry.1 ≤ c.lastStreamId)
  pending : ∀ object, c.pendingHeaders = some object → object < c.nextObject
  lastId : c.goingAway = false → c.isServer = true → reading.lastId = c.lastStreamId
  block : c.goingAway = false → BlockHeld reading.block c

theorem goesOn_of_untouched {c d : Http2Connection} (h : Untouched c d)
    (hd : d.goingAway = false) : c.goingAway = false := by
  cases hc : c.goingAway with
  | false => rfl
  | true =>
      rw [h.goingAway hc] at hd
      cases hd

theorem HeaderInv.untouched {reading : HeaderReading} {c d : Http2Connection}
    (h : HeaderInv reading c) (k : Untouched c d) : HeaderInv reading d := by
  obtain ⟨events, hlog, hsilent⟩ := k.log
  have hdecoded : decodedOf d.log = decodedOf c.log := by
    rw [hlog, decodedOf_silent _ _ hsilent]
  exact
    { inStep := by
        intro hd
        rw [k.decoder]
        exact h.inStep (goesOn_of_untouched k hd)
      decoded := by
        intro hd
        rw [hdecoded]
        exact h.decoded (goesOn_of_untouched k hd)
      read := by
        rw [hdecoded]
        exact h.read
      limit := by
        rw [hdecoded]
        exact h.limit
      errors := by
        intro hu
        rw [hlog] at hu
        exact h.errors (undecoded_silent _ _ hsilent hu)
      known := by
        intro entry he
        rcases k.streams entry he with he | ⟨hclient, hlt⟩
        · obtain ⟨hlt, hle⟩ := h.known entry he
          refine ⟨Nat.lt_of_lt_of_le hlt k.nextObject, ?_⟩
          rw [k.isServer, k.lastStreamId]
          exact hle
        · refine ⟨hlt, ?_⟩
          rw [k.isServer, hclient]
          intro hserver
          cases hserver
      pending := by
        intro object ho
        rw [k.pendingHeaders] at ho
        exact Nat.lt_of_lt_of_le (h.pending object ho) k.nextObject
      lastId := by
        intro hd hserver
        rw [k.lastStreamId]
        exact h.lastId (goesOn_of_untouched k hd) (k.isServer ▸ hserver)
      block := by
        intro hd
        have hblock := h.block (goesOn_of_untouched k hd)
        exact
          { closed := fun hb => k.pendingHeaders.trans (hblock.closed hb)
            refused := fun octets hb => k.pendingHeaders.trans (hblock.refused octets hb)
            kept := by
              intro octets hb
              obtain ⟨object, hp, hf⟩ := hblock.kept octets hb
              refine ⟨object, k.pendingHeaders.trans hp, ?_⟩
              rw [k.fragment object (h.pending object hp), hf] } }

/-- Once the connection goes away, the reading goes on alone. -/
theorem HeaderInv.gone {reading next : HeaderReading} {c : Http2Connection}
    (h : HeaderInv reading c) (hgone : c.goingAway = true)
    (hgrows : HeaderReading.Grows reading next) : HeaderInv next c where
  inStep := fun hd => absurd (hgone.symm.trans hd) (by decide)
  decoded := fun hd => absurd (hgone.symm.trans hd) (by decide)
  read := h.read.trans hgrows.meant
  limit := h.limit
  errors := fun hu => hgrows.exceeds (h.errors hu)
  known := h.known
  pending := h.pending
  lastId := fun hd => absurd (hgone.symm.trans hd) (by decide)
  block := fun hd => absurd (hgone.symm.trans hd) (by decide)

theorem HeaderInv.noteRead {reading : HeaderReading} {c : Http2Connection}
    (h : HeaderInv reading c) (busy : List Nat) (wire : Frame) :
    HeaderInv reading (c.noteRead busy wire) := by
  have hdecoded : decodedOf (c.noteRead busy wire).log = decodedOf c.log := by
    simp [decodedOf, Http2Connection.noteRead, note]
  exact
    { inStep := h.inStep
      decoded := fun hd => hdecoded.trans (h.decoded hd)
      read := hdecoded ▸ h.read
      limit := hdecoded ▸ h.limit
      errors := by
        rintro ⟨message, hm⟩
        rcases List.mem_append.mp hm with hm | hm
        · exact h.errors ⟨message, hm⟩
        · cases List.mem_singleton.mp hm
      known := h.known
      pending := h.pending
      lastId := h.lastId
      block := fun hd => ⟨(h.block hd).closed, (h.block hd).refused, (h.block hd).kept⟩ }

/-- A new stream of a server, whose name is the highest so far. -/
theorem HeaderInv.opened {reading : HeaderReading} {c : Http2Connection}
    (h : HeaderInv reading c) (id : Nat) (hid : c.lastStreamId < id) :
    HeaderInv { reading with lastId := id }
      ({ c with lastStreamId := id }.openStream id) := by
  have hdecoded : decodedOf ({ c with lastStreamId := id }.openStream id).log =
      decodedOf c.log := by
    simp [decodedOf, openStream, remove, note]
  exact
    { inStep := h.inStep
      decoded := fun hd => hdecoded.trans (h.decoded hd)
      read := hdecoded ▸ h.read
      limit := hdecoded ▸ h.limit
      errors := by
        rintro ⟨message, hm⟩
        rcases List.mem_append.mp hm with hm | hm
        · exact h.errors ⟨message, hm⟩
        · cases List.mem_singleton.mp hm
      known := by
        intro entry he
        rcases List.mem_append.mp he with he | he
        · obtain ⟨hlt, hle⟩ := h.known entry (List.mem_filter.mp he).1
          exact ⟨Nat.lt_succ_of_lt hlt, fun hs => Nat.le_of_lt (Nat.lt_of_le_of_lt (hle hs) hid)⟩
        · cases List.mem_singleton.mp he
          exact ⟨Nat.lt_succ_self _, fun _ => Nat.le_refl _⟩
      pending := fun object ho => Nat.lt_succ_of_lt (h.pending object ho)
      lastId := fun _ _ => rfl
      block := by
        intro hd
        have hblock := h.block hd
        exact
          { closed := hblock.closed
            refused := hblock.refused
            kept := by
              intro octets hb
              obtain ⟨object, hp, hf⟩ := hblock.kept octets hb
              refine ⟨object, hp, ?_⟩
              simpa [openStream, remove, note, Nat.ne_of_lt (h.pending object hp)] using hf } }

/-- The state after a step, whose log has grown by events other than a frame read. -/
structure Reached (reading : HeaderReading) (c d : Http2Connection) : Prop where
  inv : HeaderInv reading d
  log : Unread c d

theorem Reached.after {reading : HeaderReading} {c d e : Http2Connection}
    (h : Reached reading d e) (hlog : Unread c d) : Reached reading c e :=
  ⟨h.inv, hlog.trans h.log⟩

theorem HeaderInv.reached {reading : HeaderReading} {c d : Http2Connection}
    (h : HeaderInv reading c) (k : Untouched c d) : Reached reading c d :=
  ⟨h.untouched k, k.unread⟩

theorem HeaderInv.failed {reading next : HeaderReading} {c d : Http2Connection}
    (h : HeaderInv reading c) (k : Untouched c d) (hgone : d.goingAway = true)
    (hgrows : HeaderReading.Grows reading next) : Reached next c d :=
  ⟨(h.untouched k).gone hgone hgrows, k.unread⟩

/-- The state between the blocks: what a part of a block leaves alone, but for the block. -/
theorem HeaderInv.withBlock {reading : HeaderReading} {c d : Http2Connection}
    (h : HeaderInv reading c) (block : Option (Bool × List UInt8))
    (hdecoder : d.decoder = c.decoder) (hserver : d.isServer = c.isServer)
    (hlast : d.lastStreamId = c.lastStreamId) (hnext : d.nextObject = c.nextObject)
    (hstreams : d.streams = c.streams) (hlog : d.log = c.log)
    (hgoing : d.goingAway = c.goingAway)
    (hpending : ∀ object, d.pendingHeaders = some object → object < d.nextObject)
    (hblock : BlockHeld block d) : HeaderInv { reading with block := block } d where
  inStep := fun hd => hdecoder ▸ h.inStep (hgoing ▸ hd)
  decoded := fun hd => hlog ▸ h.decoded (hgoing ▸ hd)
  read := hlog ▸ h.read
  limit := hlog ▸ h.limit
  errors := hlog ▸ h.errors
  known := by
    rw [hstreams, hnext, hserver, hlast]
    exact h.known
  pending := hpending
  lastId := fun hd hs => hlast ▸ h.lastId (hgoing ▸ hd) (hserver ▸ hs)
  block := fun _ => hblock

/-- A block decoded, or given up because its list is over the limit. -/
theorem HeaderInv.block_whole {reading : HeaderReading} {c : Http2Connection}
    (h : HeaderInv reading c) (hgoing : c.goingAway = false) (hclosed : c.pendingHeaders = none)
    (reps : List Representation) (rest : List (List Representation)) (last : HeaderTable)
    (fields : List OctetField) (hblocks : reading.blocks = reps :: rest)
    (happly : applyAll reading.table reps = some (last, fields))
    (hfollowed : Followed reading.table reps last fields) :
    (∃ e, c.decoder.decode (wireBlock reps) = .error e ∧
        Reached (reading.finish false) c ((c.note (.undecoded e)).fail COMPRESSION_ERROR e)) ∨
      ∃ read decoder, c.decoder.decode (wireBlock reps) = .ok (read, decoder) ∧
        Reached (reading.finish false) c ({ c with decoder := decoder }.note (.decoded read)) := by
  have hfinish : reading.finish false = { reading with
      table := last, block := none, blocks := rest, meant := reading.meant ++ [fields]
      exceeds := reading.exceeds || decide (262144 < total fieldSize fields) } := by
    simp [HeaderReading.finish, hblocks, happly]
  have hdecoded := h.decoded hgoing
  rcases (h.inStep hgoing).decode reps fields happly hfollowed.legible hfollowed.ascii with
    ⟨hover, e, he⟩ | ⟨hwithin, read, decoder, hd, hread, hstep⟩
  · refine .inl ⟨e, he, ?_⟩
    have hlong := lt_total_of_withinLimit 262144 reps reading.table last fields 0 happly hover
    have hquiet := fail_quiet (c.note (.undecoded e)) COMPRESSION_ERROR e
    have hnote : HeaderInv (reading.finish false)
        ((c.note (.undecoded e)).fail COMPRESSION_ERROR e) := by
      obtain ⟨frames, hlog⟩ := hquiet.log
      have hsame : decodedOf ((c.note (.undecoded e)).fail COMPRESSION_ERROR e).log =
          decodedOf c.log := by
        rw [hlog]
        simp [decodedOf, note]
      have hgone := fail_goingAway (c.note (.undecoded e)) COMPRESSION_ERROR e
      exact
        { inStep := fun hd => absurd (hgone.symm.trans hd) (by decide)
          decoded := fun hd => absurd (hgone.symm.trans hd) (by decide)
          read := by
            rw [hsame, hdecoded, hfinish]
            exact List.prefix_append _ _
          limit := by
            rw [hsame]
            exact h.limit
          errors := by
            intro _
            rw [hfinish]
            simp only [Bool.or_eq_true, decide_eq_true_eq]
            exact .inr (by omega)
          known := by
            intro entry he
            rw [hquiet.nextObject, hquiet.isServer, hquiet.lastStreamId]
            exact h.known entry (hquiet.streams.subset he)
          pending := by
            intro object ho
            rw [hquiet.pendingHeaders] at ho
            exact absurd (hclosed.symm.trans ho) (by simp)
          lastId := fun hd => absurd (hgone.symm.trans hd) (by decide)
          block := fun hd => absurd (hgone.symm.trans hd) (by decide) }
    refine ⟨hnote, ?_⟩
    obtain ⟨frames, hlog⟩ := hquiet.log
    refine ⟨.undecoded e :: frames.map Event.wrote, ?_, ?_⟩
    · rw [hlog]
      simp [note]
    · intro event hevent
      rcases List.mem_cons.mp hevent with rfl | hevent
      · trivial
      · obtain ⟨frame, _, rfl⟩ := List.mem_map.mp hevent
        trivial
  · refine .inr ⟨read, decoder, hd, ?_, [.decoded read], rfl, by simp [Event.Unread]⟩
    have htable : (⟨keep fieldSize last.capacity
        ((entersAll reading.table reps).reverse ++ reading.table.entries), last.capacity⟩ :
        HeaderTable) = last := by
      rw [← hfollowed.settles]
    rw [htable] at hstep
    have hlog : decodedOf ({ c with decoder := decoder }.note (.decoded read)).log =
        reading.meant ++ [fields] := by
      rw [← hdecoded, ← hread]
      simp [decodedOf, note]
    rw [hfinish]
    exact
      { inStep := fun _ => hstep
        decoded := fun _ => hlog
        read := by
          rw [hlog]
        limit := by
          intro list hlist
          rw [hlog] at hlist
          rcases List.mem_append.mp hlist with hlist | hlist
          · rw [← hdecoded] at hlist
            exact h.limit list hlist
          · rw [List.mem_singleton.mp hlist]
            exact hfollowed.listed hwithin
        errors := by
          rintro ⟨message, hm⟩
          rcases List.mem_append.mp hm with hm | hm
          · simp [h.errors ⟨message, hm⟩]
          · cases List.mem_singleton.mp hm
        known := h.known
        pending := h.pending
        lastId := h.lastId
        block := fun _ =>
          { closed := fun _ => hclosed
            refused := fun _ _ => hclosed
            kept := by
              intro octets hb
              cases hb } }

theorem finish_block (reading : HeaderReading) (block : Option (Bool × List UInt8))
    (refused : Bool) :
    ({ reading with block := block } : HeaderReading).finish refused = reading.finish refused := by
  unfold HeaderReading.finish
  simp only

theorem finish_closed (reading : HeaderReading) (refused : Bool) :
    { reading.finish refused with block := none } = reading.finish refused := by
  unfold HeaderReading.finish
  split
  · rfl
  · split
    · rfl
    · split <;> rfl

/-- The connection goes away over an object whose part of a block may have changed. -/
theorem HeaderInv.broken {reading next : HeaderReading} {c : Http2Connection}
    (h : HeaderInv reading c) (object : Nat) (f : Http2Stream → Http2Stream) (errorCode : Nat)
    (message : String) (hgrows : HeaderReading.Grows reading next) :
    Reached next c ((c.modify object f).fail errorCode message) := by
  have hquiet := fail_quiet (c.modify object f) errorCode message
  have hgone := fail_goingAway (c.modify object f) errorCode message
  obtain ⟨events, hlog, hsilent⟩ := hquiet.untouched.log
  have hsame : decodedOf ((c.modify object f).fail errorCode message).log = decodedOf c.log := by
    rw [hlog]
    exact decodedOf_silent _ _ hsilent
  refine ⟨?_, events, hlog, fun event he => (hsilent event he).unread⟩
  exact
    { inStep := fun hd => absurd (hgone.symm.trans hd) (by decide)
      decoded := fun hd => absurd (hgone.symm.trans hd) (by decide)
      read := hsame ▸ h.read.trans hgrows.meant
      limit := hsame ▸ h.limit
      errors := by
        intro hu
        rw [hlog] at hu
        exact hgrows.exceeds (h.errors (undecoded_silent _ _ hsilent hu))
      known := by
        intro entry he
        rw [hquiet.nextObject, hquiet.isServer, hquiet.lastStreamId]
        exact h.known entry (hquiet.streams.subset he)
      pending := by
        intro other ho
        rw [hquiet.pendingHeaders] at ho
        rw [hquiet.nextObject]
        exact h.pending other ho
      lastId := fun hd => absurd (hgone.symm.trans hd) (by decide)
      block := fun hd => absurd (hgone.symm.trans hd) (by decide) }

theorem BlockHeld.none {c : Http2Connection} (h : c.pendingHeaders = none) :
    BlockHeld none c where
  closed := fun _ => h
  refused := fun _ _ => h
  kept := by
    intro octets hb
    cases hb

theorem BlockHeld.open {c : Http2Connection} {object : Nat} {octets : List UInt8}
    (h : c.pendingHeaders = some object) (hf : (c.objects object).fragment = some octets) :
    BlockHeld (some (false, octets)) c where
  closed := by
    intro hb
    cases hb
  refused := by
    intro other hb
    cases hb
  kept := by
    intro other hb
    cases hb
    exact ⟨object, h, hf⟩

/-- A part of a block of a stream that is not refused. -/
theorem HeaderInv.collect {reading : HeaderReading} {c : Http2Connection}
    (h : HeaderInv reading c) (hgoing : c.goingAway = false) {object : Nat}
    (hobject : object < c.nextObject) {payload octets : List UInt8} {frame : Frame}
    {result : Http2Connection × Option Nat} (hcollected : Collected c object payload frame result)
    (hoctets : c.gathered object payload = octets)
    (hwhole : frame.hasFlag FLAG_END_HEADERS = true → ∃ reps rest last fields,
      reading.blocks = reps :: rest ∧ wireBlock reps = octets ∧
        applyAll reading.table reps = some (last, fields) ∧
          Followed reading.table reps last fields) :
    Reached (reading.extend false octets (frame.hasFlag FLAG_END_HEADERS)) c result.1 := by
  subst hoctets
  have hset : (((c.withFragment object (c.gathered object payload)).objects object).fragment) =
      some (c.gathered object payload) := by
    unfold withFragment
    rw [modify_objects]
  have hclosed := h.withBlock (d := { c.withFragment object (c.gathered object payload) with
    pendingHeaders := none }) none rfl rfl rfl rfl rfl rfl rfl (fun _ ho => absurd ho (by simp))
      (.none rfl)
  cases hcollected with
  | large hlong => exact h.broken object _ _ _ (reading.extend_grows _ _ _)
  | part hlong hends =>
      have hopen := h.withBlock (d := { c.withFragment object (c.gathered object payload) with
        pendingHeaders := some object }) (some (false, c.gathered object payload)) rfl rfl rfl rfl
          rfl rfl rfl (fun other ho => Option.some.inj ho ▸ hobject) (.open rfl hset)
      rw [hends]
      exact ⟨hopen, [], (List.append_nil _).symm, by simp⟩
  | garbled hlong hends e hdecode =>
      obtain ⟨reps, rest, last, fields, hblocks, hwire, happly, hfollowed⟩ := hwhole hends
      have hblock := hclosed.block_whole hgoing rfl reps rest last fields hblocks happly hfollowed
      rw [finish_block, hwire] at hblock
      rw [hends]
      rcases hblock with ⟨other, he, hreached⟩ | ⟨read, decoder, hd, hreached⟩
      · cases he.symm.trans hdecode
        exact ⟨hreached.inv, hreached.log⟩
      · cases hd.symm.trans hdecode
  | whole hlong hends decoded decoder hdecode =>
      obtain ⟨reps, rest, last, fields, hblocks, hwire, happly, hfollowed⟩ := hwhole hends
      have hblock := hclosed.block_whole hgoing rfl reps rest last fields hblocks happly hfollowed
      rw [finish_block, hwire] at hblock
      rw [hends]
      rcases hblock with ⟨e, he, hreached⟩ | ⟨read, after, hd, hreached⟩
      · cases he.symm.trans hdecode
      · cases hd.symm.trans hdecode
        have hinv := hreached.inv.withBlock
          (d := ({ c.withFragment object (c.gathered object payload) with
            pendingHeaders := none, decoder := decoder }.note (.decoded decoded)).modify object
              (storeFields decoded (frame.hasFlag FLAG_END_STREAM))) none rfl rfl rfl rfl rfl rfl rfl
          (fun _ ho => absurd ho (by simp [note, Http2Connection.modify])) (.none rfl)
        rw [finish_closed] at hinv
        exact ⟨hinv, hreached.log⟩

/-- A block the encoder wrote and the decoder follows, unless its stream is refused. -/
theorem whole_block {isServer : Bool} {reading : HeaderReading} {held : Nat} {busy : List Nat}
    {wire frame : Frame} (hread : readFrame maxFrameSize wire = .ok frame)
    (hencoded : Encoded isServer reading (.read held busy wire))
    (hfollows : Follows isServer reading (.read held busy wire)) {refused : Bool}
    {octets : List UInt8} (hjoined : reading.joined isServer held frame = some (refused, octets))
    (hends : frame.hasFlag FLAG_END_HEADERS = true) :
    ∃ reps rest last fields, reading.blocks = reps :: rest ∧ wireBlock reps = octets ∧
      applyAll reading.table reps = some (last, fields) ∧
        if refused then last = reading.table else Followed reading.table reps last fields := by
  obtain ⟨reps, rest, hblocks, hwire, hsome⟩ := (hencoded frame hread).2 refused octets hjoined hends
  obtain ⟨⟨last, fields⟩, happly⟩ := Option.isSome_iff_exists.mp hsome
  exact ⟨reps, rest, last, fields, hblocks, hwire, happly,
    hfollows frame hread refused octets hjoined hends reps rest last fields hblocks happly⟩

/-- The highest name is of no account to a client. -/
theorem HeaderInv.renamed {reading : HeaderReading} {c : Http2Connection}
    (h : HeaderInv reading c) (id : Nat) (hid : c.isServer = true → c.goingAway = false →
      id = c.lastStreamId) : HeaderInv { reading with lastId := id } c where
  inStep := h.inStep
  decoded := h.decoded
  read := h.read
  limit := h.limit
  errors := h.errors
  known := h.known
  pending := h.pending
  lastId := fun hg hs => hid hs hg
  block := h.block

/-- The block of a stream that is refused, which the table does not show. -/
theorem HeaderInv.skipped {reading : HeaderReading} {c : Http2Connection}
    (h : HeaderInv reading c) (hpending : c.pendingHeaders = none) (id : Nat)
    (hid : c.lastStreamId < id) (octets : List UInt8) (ends : Bool)
    (hwhole : ends = true → ∃ reps rest last fields, reading.blocks = reps :: rest ∧
      applyAll reading.table reps = some (last, fields) ∧ last = reading.table) :
    HeaderInv (({ reading with lastId := id } : HeaderReading).extend true octets ends)
      { c with lastStreamId := id } := by
  have hmoved : ∀ (block : Option (Bool × List UInt8)) (blocks : List (List Representation)),
      (∀ kept, block ≠ some (false, kept)) →
      HeaderInv { reading with lastId := id, block := block, blocks := blocks }
        { c with lastStreamId := id } := by
    intro block blocks hblock
    exact
      { inStep := h.inStep
        decoded := h.decoded
        read := h.read
        limit := h.limit
        errors := h.errors
        known := fun entry he => ⟨(h.known entry he).1,
          fun hs => Nat.le_of_lt (Nat.lt_of_le_of_lt ((h.known entry he).2 hs) hid)⟩
        pending := h.pending
        lastId := fun _ _ => rfl
        block := fun _ =>
          { closed := fun _ => hpending
            refused := fun _ _ => hpending
            kept := fun kept hk => absurd hk (hblock kept) } }
  cases ends with
  | false =>
      have h' := hmoved (some (true, octets)) reading.blocks (by simp)
      exact h'
  | true =>
      obtain ⟨reps, rest, last, fields, hblocks, happly, hlast⟩ := hwhole rfl
      have hfinish : ({ reading with lastId := id } : HeaderReading).finish true =
          { reading with lastId := id, block := none, blocks := rest } := by
        simp [HeaderReading.finish, hblocks, happly, hlast]
      simp only [HeaderReading.extend, if_true]
      rw [hfinish]
      exact hmoved none rest (by simp)

theorem HeaderInv.headers {reading : HeaderReading} {c : Http2Connection} {busy : List Nat}
    {wire frame : Frame} {result : Http2Connection × Option Nat} (h : HeaderInv reading c)
    (hgoing : c.goingAway = false) (hpending : c.pendingHeaders = none)
    (htype : frame.type = HEADERS) (hread : readFrame maxFrameSize wire = .ok frame)
    (hencoded : Encoded c.isServer reading (.read c.streams.length busy wire))
    (hfollows : Follows c.isServer reading (.read c.streams.length busy wire))
    (htaken : HeadersTaken c frame result) :
    Reached (reading.take c.isServer c.streams.length frame) c result.1 := by
  have hgrows := reading.take_grows c.isServer c.streams.length frame
  have hjoined : reading.joined c.isServer c.streams.length frame =
      some (reading.refuses c.isServer c.streams.length frame, headerFragment frame) := by
    simp [HeaderReading.joined, htype]
  have hwhole := fun hends => whole_block hread hencoded hfollows hjoined hends
  have htake : reading.take c.isServer c.streams.length frame =
      ({ reading with lastId := max reading.lastId frame.streamId } : HeaderReading).extend
        (reading.refuses c.isServer c.streams.length frame) (headerFragment frame)
        (frame.hasFlag FLAG_END_HEADERS) := by
    simp [HeaderReading.take, hjoined, HeaderReading.named, htype]
  have hgathered : ∀ (d : Http2Connection) (object : Nat), d.pendingHeaders = none →
      d.gathered object (headerFragment frame) = headerFragment frame := by
    intro d object hd
    simp [gathered, hd]
  cases htaken with
  | streamZero hid => exact h.failed (fail_quiet _ _ _).untouched (fail_goingAway _ _ _) hgrows
  | short hid hpriority hshort => exact h.failed (fail_quiet _ _ _).untouched (fail_goingAway _ _ _) hgrows
  | invalid hid hlookup hserver hold =>
      exact h.failed (fail_quiet _ _ _).untouched (fail_goingAway _ _ _) hgrows
  | known hid object hlookup result hcollected =>
      obtain ⟨hlt, hle⟩ := h.known _ (lookup_mem hlookup)
      have hkept : reading.refuses c.isServer c.streams.length frame = false := by
        cases hs : c.isServer with
        | false => rfl
        | true =>
            have := hle hs
            rw [← h.lastId hgoing hs] at this
            simp [HeaderReading.refuses, Nat.not_lt.mpr this]
      rw [hkept] at htake hwhole
      have hnamed := h.renamed (max reading.lastId frame.streamId) (by
        intro hs _
        rw [h.lastId hgoing hs]
        exact Nat.max_eq_left (hle hs))
      rw [htake]
      exact hnamed.collect hgoing hlt hcollected (hgathered _ _ hpending) hwhole
  | refused hid hlookup hserver hnew hfull =>
      have hlast := h.lastId hgoing hserver
      have hlt : c.lastStreamId < frame.streamId := by omega
      have hrefused : reading.refuses c.isServer c.streams.length frame = true := by
        simp [HeaderReading.refuses, hserver, hlast, hlt, hfull]
      rw [hrefused] at htake hwhole
      have hmax : max reading.lastId frame.streamId = frame.streamId := by omega
      rw [hmax] at htake
      rw [htake]
      have hskipped := h.skipped hpending frame.streamId hlt (headerFragment frame)
        (frame.hasFlag FLAG_END_HEADERS) (by
          intro hends
          obtain ⟨reps, rest, last, fields, hblocks, _, happly, hsame⟩ := hwhole hends
          exact ⟨reps, rest, last, fields, hblocks, happly, hsame⟩)
      have hreset := (reset_quiet { c with lastStreamId := frame.streamId } frame.streamId
        REFUSED_STREAM).untouched
      exact ⟨hskipped.untouched hreset, hreset.unread⟩
  | fresh hid hlookup hserver hnew hroom result hcollected =>
      have hlast := h.lastId hgoing hserver
      have hlt : c.lastStreamId < frame.streamId := by omega
      have hkept : reading.refuses c.isServer c.streams.length frame = false := by
        simp [HeaderReading.refuses, hroom]
      rw [hkept] at htake hwhole
      have hmax : max reading.lastId frame.streamId = frame.streamId := by omega
      rw [hmax] at htake
      have hone := (h.opened frame.streamId hlt).collect hgoing (Nat.lt_succ_self _) hcollected
        (hgathered _ _ hpending) hwhole
      rw [htake]
      exact hone.after ⟨[.opened frame.streamId], rfl, by simp [Event.Unread]⟩
  | response hid hlookup hclient result hcollected =>
      have hkept : reading.refuses c.isServer c.streams.length frame = false := by
        simp [HeaderReading.refuses, hclient]
      rw [hkept] at htake hwhole
      have hnamed := h.renamed (max reading.lastId frame.streamId) (by
        intro hs
        rw [hclient] at hs
        cases hs)
      have hopened := openStream_untouched c frame.streamId c.nextStreamId hclient
      have hone := (hnamed.untouched hopened).collect hgoing (Nat.lt_succ_self _) hcollected
        (hgathered _ _ hpending) hwhole
      rw [htake]
      exact hone.after hopened.unread

theorem HeaderInv.continuation {reading : HeaderReading} {c : Http2Connection} {busy : List Nat}
    {wire frame : Frame} {result : Http2Connection × Option Nat} (h : HeaderInv reading c)
    (hgoing : c.goingAway = false) (htype : frame.type = CONTINUATION)
    (hread : readFrame maxFrameSize wire = .ok frame)
    (hencoded : Encoded c.isServer reading (.read c.streams.length busy wire))
    (hfollows : Follows c.isServer reading (.read c.streams.length busy wire))
    (htaken : ContinuationTaken c frame result) :
    Reached (reading.take c.isServer c.streams.length frame) c result.1 := by
  have hgrows := reading.take_grows c.isServer c.streams.length frame
  cases htaken with
  | unexpected hother =>
      exact h.failed (fail_quiet _ _ _).untouched (fail_goingAway _ _ _) hgrows
  | more object hobject hid result hcollected =>
      have hblock := h.block hgoing
      cases hopen : reading.block with
      | none => cases hobject.symm.trans (hblock.closed hopen)
      | some block =>
          obtain ⟨refused, octets⟩ := block
          cases refused with
          | true => cases hobject.symm.trans (hblock.refused octets hopen)
          | false =>
              obtain ⟨other, hother, hfragment⟩ := hblock.kept octets hopen
              cases hobject.symm.trans hother
              have hgathered : c.gathered object frame.payload = octets ++ frame.payload := by
                simp [gathered, hobject, hfragment]
              have hnot : frame.type ≠ HEADERS := by
                rw [htype]
                decide
              have hjoined : reading.joined c.isServer c.streams.length frame =
                  some (false, octets ++ frame.payload) := by
                simp [HeaderReading.joined, htype, hopen]
              have htake : reading.take c.isServer c.streams.length frame =
                  reading.extend false (octets ++ frame.payload)
                    (frame.hasFlag FLAG_END_HEADERS) := by
                simp [HeaderReading.take, hjoined, HeaderReading.named, hnot]
              rw [htake]
              exact h.collect hgoing (h.pending object hobject) hcollected hgathered
                (whole_block hread hencoded hfollows hjoined)

theorem take_other (reading : HeaderReading) (isServer : Bool) (held : Nat) (frame : Frame)
    (hheaders : frame.type ≠ HEADERS) (hcontinuation : frame.type ≠ CONTINUATION) :
    reading.take isServer held frame = reading := by
  have hjoined : reading.joined isServer held frame = none := by
    simp [HeaderReading.joined, hheaders, hcontinuation]
  simp [HeaderReading.take, hjoined]

theorem HeaderInv.process {reading : HeaderReading} {c : Http2Connection} {busy : List Nat}
    {wire frame : Frame} {result : Http2Connection × Option Nat} (h : HeaderInv reading c)
    (hgoing : c.goingAway = false) (hread : readFrame maxFrameSize wire = .ok frame)
    (hencoded : Encoded c.isServer reading (.read c.streams.length busy wire))
    (hfollows : Follows c.isServer reading (.read c.streams.length busy wire))
    (hprocessed : Processed c frame result) :
    Reached (reading.take c.isServer c.streams.length frame) c result.1 := by
  have hother : frame.type ≠ HEADERS → frame.type ≠ CONTINUATION → Untouched c result.1 →
      Reached (reading.take c.isServer c.streams.length frame) c result.1 := by
    intro hheaders hcontinuation huntouched
    rw [take_other reading _ _ frame hheaders hcontinuation]
    exact h.reached huntouched
  cases hprocessed with
  | interrupted hpending htype =>
      exact h.failed (fail_quiet _ _ _).untouched (fail_goingAway _ _ _) (reading.take_grows _ _ _)
  | headers hpending htype result htaken =>
      exact h.headers hgoing hpending htype hread hencoded hfollows htaken
  | continuation htype result htaken =>
      exact h.continuation hgoing htype hread hencoded hfollows htaken
  | data hpending htype result htaken =>
      exact hother (by rw [htype]; decide) (by rw [htype]; decide) htaken.untouched
  | settings hpending htype =>
      exact hother (by rw [htype]; decide) (by rw [htype]; decide) (onSettings_quiet _ _).untouched
  | windowUpdate hpending htype =>
      exact hother (by rw [htype]; decide) (by rw [htype]; decide)
        (onWindowUpdate_quiet _ _).untouched
  | ping hpending htype =>
      exact hother (by rw [htype]; decide) (by rw [htype]; decide) (onPing_quiet _ _).untouched
  | resetStream hpending htype =>
      exact hother (by rw [htype]; decide) (by rw [htype]; decide) (remove_quiet _ _).untouched
  | goaway hpending htype =>
      exact hother (by rw [htype]; decide) (by rw [htype]; decide) (goingAway_quiet _).untouched
  | pushPromise hpending htype =>
      exact hother (by rw [htype]; decide) (by rw [htype]; decide) (fail_quiet _ _ _).untouched
  | priority hpending htype hsize =>
      exact hother (by rw [htype]; decide) (by rw [htype]; decide) (reset_quiet _ _ _).untouched
  | ignored hpending hheaders hcontinuation _ _ _ _ _ =>
      exact hother hheaders hcontinuation (.refl c)

/-- The blocks are the encoder's, and ones the decoder follows. -/
def Readable (isServer : Bool) (reading : HeaderReading) (event : Event) : Prop :=
  Encoded isServer reading event ∧ Follows isServer reading event

def HeaderInvOf (isServer : Bool) (reading : HeaderReading) (s : Session) : Prop :=
  s.conn.isServer = isServer ∧ HeaderInv reading s.conn

abbrev HeaderCarries (isServer : Bool) : Session → Session → Prop :=
  Carries (fun s => s.conn.log) (Readable isServer) (fun _ _ => True)
    (HeaderReading.hear isServer) (HeaderInvOf isServer)

theorem Untouched.carries {isServer : Bool} {s t : Session} (h : Untouched s.conn t.conn) :
    HeaderCarries isServer s t := by
  obtain ⟨events, hlog, hunread⟩ := h.unread
  refine ⟨events, hlog, ?_⟩
  intro reading hinv _
  rw [hear_unread isServer events reading hunread]
  exact ⟨⟨h.isServer.trans hinv.1, hinv.2.untouched h⟩,
    along_of_forall _ _ _ fun _ _ _ => trivial⟩

theorem process_carries {isServer : Bool} {c d : Http2Connection} {busy : List Nat}
    {wire frame : Frame} {writing next : Option Nat}
    (hread : readFrame maxFrameSize wire = .ok frame) (hgoing : c.goingAway = false)
    (hqueue : Untouched ((c.noteRead busy wire).process frame).1 d) :
    HeaderCarries isServer ⟨c, writing⟩ ⟨d, next⟩ := by
  obtain ⟨events, hlog, hunread⟩ :=
    (process_unread (c.noteRead busy wire) frame).trans hqueue.unread
  refine ⟨.read c.streams.length (c.idsOf busy) wire :: events, ?_, ?_⟩
  · simp only
    rw [hlog]
    exact List.append_assoc _ _ _
  · intro reading hinv halong
    obtain ⟨hrole, hinv⟩ := hinv
    obtain ⟨⟨hencoded, hfollows⟩, _⟩ := halong
    have hhear : reading.hear isServer (.read c.streams.length (c.idsOf busy) wire) =
        reading.take isServer c.streams.length frame := by
      simp only [HeaderReading.hear, hread]
    rw [List.foldl_cons, hhear, hear_unread isServer events _ hunread]
    have hone := (hinv.noteRead busy wire).process hgoing hread (hrole ▸ hencoded)
      (hrole ▸ hfollows) (process_processed (c.noteRead busy wire) frame)
    refine ⟨⟨?_, ?_⟩, along_of_forall _ _ _ fun _ _ _ => trivial⟩
    · exact hqueue.isServer.trans ((process_role _ _).trans hrole)
    · exact hrole ▸ hone.inv.untouched hqueue

theorem receive_queue (c : Http2Connection) (busy : List Nat) (wire frame : Frame) :
    Untouched ((c.noteRead busy wire).process frame).1 (c.receive busy wire frame) := by
  unfold receive
  simp only
  split
  · exact .refl _
  · exact queues_untouched _ _ _ _

theorem Step.headerCarries (isServer : Bool) {s t : Session} (h : Step s t) :
    HeaderCarries isServer s t := by
  cases h with
  | receive s wire frame hread hgoing =>
      exact process_carries hread hgoing (receive_queue _ _ _ _)
  | observe c wire frame hread hgoing hclient => exact process_carries hread hgoing (.refl _)
  | forget c id hclient => exact (remove_quiet c id).untouched.carries
  | malformed s wire =>
      exact (note_untouched s.conn (.malformed wire) trivial).carries
  | late c wire hgoing =>
      refine ⟨[.read c.streams.length (c.idsOf c.ready) wire], rfl, ?_⟩
      intro reading hinv _
      exact ⟨⟨hinv.1, (hinv.2.noteRead c.ready wire).gone hgoing (reading.hear_grows isServer
        (.read c.streams.length (c.idsOf c.ready) wire))⟩,
          along_of_forall _ _ _ fun _ _ _ => trivial⟩
  | fail c wire message =>
      exact ((note_untouched c (.malformed wire) trivial).trans (fail_quiet _ _ _).untouched).carries
  | hand c object ready request hready hrequest hserver =>
      exact ((queues_untouched c ready c.feeding c.driven).trans
        (note_untouched _ (.handed _ _ _ _) trivial)).carries
  | reject c object ready message hready hrequest hserver =>
      exact ((queues_untouched c ready c.feeding c.driven).trans
        (reset_quiet _ _ _).untouched).carries
  | request c hclient => exact (openStream_untouched c _ _ hclient).carries
  | headers c object block endStream => exact (writeHeaders_quiet _ _ _ _).untouched.carries
  | piece c object piece last hfits => exact (sendPiece_quiet _ _ _ _).untouched.carries
  | finish c object => exact (finishData_quiet _ _).untouched.carries
  | park c object feed hserver =>
      exact ((modify_untouched c object _ rfl).trans (queues_untouched _ _ _ _)).carries
  | abort c object => exact (reset_quiet _ _ _).untouched.carries
  | release c object hserver =>
      apply Untouched.carries
      simp only
      split
      · exact (remove_quiet _ _).untouched
      · exact .refl c
  | leave c object hclient => exact (Untouched.refl c).carries
  | feedPiece c object piece left hserver hfeeding hopen hfits =>
      exact ((modify_untouched c object _ rfl).trans (sendPiece_quiet _ _ _ _).untouched).carries
  | feedEnd c object left hserver hfeeding hopen =>
      exact ((modify_untouched c object _ rfl).trans (finishData_quiet _ _).untouched).carries
  | feedDone c object hserver hfeeding =>
      exact ((modify_untouched c object _ rfl).trans (remove_quiet _ _).untouched).carries
  | unfeed c object =>
      exact (modify_untouched c object (fun stream => { stream with feed := none }) rfl).carries
  | waitingList c waiting h => exact (queues_untouched c _ _ _).carries
  | drive c => exact (queues_untouched c _ _ _).carries

theorem start_headerInv (isServer : Bool) (maxBodySize : Nat)
    (blocks : List (List Representation)) :
    HeaderInv { blocks := blocks } (start isServer maxBodySize) where
  inStep := fun _ => .initial
  decoded := fun _ => rfl
  read := List.prefix_rfl
  limit := fun _ h => absurd h List.not_mem_nil
  errors := by
    rintro ⟨message, hm⟩
    simp [start, sendSettings, write, note] at hm
  known := fun _ h => absurd h List.not_mem_nil
  pending := fun _ h => by cases h
  lastId := fun _ _ => rfl
  block := fun _ => .none rfl

/-- In every session whose blocks are the encoder's and ones the decoder follows, the
table of the decoder is the one the protocol prescribes, what is decoded is what was
meant, and only a list over the limit is given up. -/
theorem session_headersInStep (handler : List Event → HttpRequest → Response)
    (turns : List Turn) (input : List Frame) (isServer : Bool) (maxBodySize : Nat)
    (blocks : List (List Representation))
    (hencoded : Along (Encoded isServer) (HeaderReading.hear isServer) { blocks := blocks }
      (run handler turns input (start isServer maxBodySize)).2.log)
    (hfollows : Along (Follows isServer) (HeaderReading.hear isServer) { blocks := blocks }
      (run handler turns input (start isServer maxBodySize)).2.log) :
    HeadersInStep
      ((run handler turns input (start isServer maxBodySize)).2.log.foldl
        (HeaderReading.hear isServer) { blocks := blocks })
      (run handler turns input (start isServer maxBodySize)).2 := by
  have hrun := run_steps handler turns input (start isServer maxBodySize)
  have hinv := replay_run (fun s t => Step.headerCarries isServer) hrun
    (r := { blocks := blocks }) ⟨rfl, start_headerInv isServer maxBodySize blocks⟩
    (along_of_forall _ _ _ fun _ _ _ => trivial) (hencoded.and hfollows)
  exact hinv.1.2.toHeadersInStep

/-- The frames read, with what stands beside them. -/
def readsOf (log : List Event) : List (Nat × List Nat × Frame) :=
  log.filterMap fun
    | .read held busy wire => some (held, busy, wire)
    | _ => none

def readEvent (read : Nat × List Nat × Frame) : Event := .read read.1 read.2.1 read.2.2

theorem along_reads {P : HeaderReading → Event → Prop} {isServer : Bool}
    (hunread : ∀ reading event, event.Unread → P reading event) (reading : HeaderReading)
    (log : List Event)
    (h : Along P (HeaderReading.hear isServer) reading ((readsOf log).map readEvent)) :
    Along P (HeaderReading.hear isServer) reading log := by
  induction log generalizing reading with
  | nil => trivial
  | cons event log ih =>
      cases event with
      | read held busy wire => exact ⟨h.1, ih _ h.2⟩
      | opened _ | malformed _ | decoded _ | undecoded _ | handed _ _ _ _ | wrote _ =>
          exact ⟨hunread _ _ trivial, ih _ h⟩

theorem encoded_unread (isServer : Bool) (reading : HeaderReading) (event : Event)
    (h : event.Unread) : Encoded isServer reading event := by
  cases event with
  | read _ _ _ => exact h.elim
  | opened _ | malformed _ | decoded _ | undecoded _ | handed _ _ _ _ | wrote _ => trivial

theorem follows_unread (isServer : Bool) (reading : HeaderReading) (event : Event)
    (h : event.Unread) : Follows isServer reading event := by
  cases event with
  | read _ _ _ => exact h.elim
  | opened _ | malformed _ | decoded _ | undecoded _ | handed _ _ _ _ | wrote _ => trivial

/-- A block in a single HEADERS frame without priority or padding. -/
def wholeHeaders (streamId : Nat) (reps : List Representation) : Frame :=
  ⟨HEADERS, FLAG_END_HEADERS, streamId, wireBlock reps⟩

theorem readFrame_wholeHeaders (streamId : Nat) (reps : List Representation)
    (hsize : (wireBlock reps).length ≤ maxFrameSize) :
    readFrame maxFrameSize (wholeHeaders streamId reps) = .ok (wholeHeaders streamId reps) := by
  have hplain : (wholeHeaders streamId reps).padded = false := by
    change ((FLAG_END_HEADERS &&& FLAG_PADDED != 0) && _) = false
    rfl
  have hfits : ¬ maxFrameSize < (wholeHeaders streamId reps).payload.length :=
    Nat.not_lt.mpr hsize
  simp [readFrame, hplain, hfits]

theorem joined_wholeHeaders (isServer : Bool) (held streamId : Nat) (reps : List Representation)
    (reading : HeaderReading) (hroom : held < maxConcurrentStreams) :
    reading.joined isServer held (wholeHeaders streamId reps) = some (false, wireBlock reps) := by
  have hkept : reading.refuses isServer held (wholeHeaders streamId reps) = false := by
    simp [HeaderReading.refuses, Nat.not_le.mpr hroom]
  have hpriority : (wholeHeaders streamId reps).hasFlag FLAG_PRIORITY = false := by
    change (FLAG_END_HEADERS &&& FLAG_PRIORITY != 0) = false
    decide
  have hfragment : headerFragment (wholeHeaders streamId reps) = wireBlock reps := by
    unfold headerFragment
    rw [hpriority]
    rfl
  have htype : (wholeHeaders streamId reps).type = HEADERS := rfl
  simp [HeaderReading.joined, hkept, hfragment, htype]

theorem encoded_wholeHeaders (isServer : Bool) (reading : HeaderReading) (held streamId : Nat)
    (busy : List Nat) (reps : List Representation) (rest : List (List Representation))
    (hroom : held < maxConcurrentStreams) (hsize : (wireBlock reps).length ≤ maxFrameSize)
    (hclosed : reading.block = none) (hblocks : reading.blocks = reps :: rest)
    (hvalid : (applyAll reading.table reps).isSome = true) :
    Encoded isServer reading (.read held busy (wholeHeaders streamId reps)) := by
  intro frame hframe
  cases (readFrame_wholeHeaders streamId reps hsize).symm.trans hframe
  refine ⟨fun hopen => by simp [hclosed] at hopen, ?_⟩
  intro refused octets hjoined _
  cases (joined_wholeHeaders isServer held streamId reps reading hroom).symm.trans hjoined
  exact ⟨reps, rest, hblocks, rfl, hvalid⟩

theorem follows_wholeHeaders (isServer : Bool) (reading : HeaderReading) (held streamId : Nat)
    (busy : List Nat) (reps : List Representation) (rest : List (List Representation))
    (last : HeaderTable) (fields : List OctetField)
    (hroom : held < maxConcurrentStreams) (hsize : (wireBlock reps).length ≤ maxFrameSize)
    (hblocks : reading.blocks = reps :: rest)
    (happly : applyAll reading.table reps = some (last, fields))
    (hfollowed : Followed reading.table reps last fields) :
    Follows isServer reading (.read held busy (wholeHeaders streamId reps)) := by
  intro frame hframe refused octets hjoined _ reps' rest' last' fields' hblocks' happly'
  cases (readFrame_wholeHeaders streamId reps hsize).symm.trans hframe
  cases (joined_wholeHeaders isServer held streamId reps reading hroom).symm.trans hjoined
  cases hblocks.symm.trans hblocks'
  cases happly.symm.trans happly'
  exact hfollowed

theorem hear_wholeHeaders (isServer : Bool) (reading : HeaderReading) (held streamId : Nat)
    (busy : List Nat) (reps : List Representation) (rest : List (List Representation))
    (last : HeaderTable) (fields : List OctetField)
    (hroom : held < maxConcurrentStreams) (hsize : (wireBlock reps).length ≤ maxFrameSize)
    (hblocks : reading.blocks = reps :: rest)
    (happly : applyAll reading.table reps = some (last, fields)) :
    reading.hear isServer (.read held busy (wholeHeaders streamId reps)) =
      { table := last, block := none, blocks := rest, meant := reading.meant ++ [fields]
        exceeds := reading.exceeds || decide (262144 < total fieldSize fields)
        lastId := max reading.lastId streamId } := by
  have hends : (wholeHeaders streamId reps).hasFlag FLAG_END_HEADERS = true := by
    simp [wholeHeaders, Frame.hasFlag]
  have htype : (wholeHeaders streamId reps).type = HEADERS := rfl
  have hid : (wholeHeaders streamId reps).streamId = streamId := rfl
  simp [HeaderReading.hear, readFrame_wholeHeaders streamId reps hsize, HeaderReading.take,
    joined_wholeHeaders isServer held streamId reps reading hroom, HeaderReading.named,
    HeaderReading.extend, HeaderReading.finish, hends, htype, hid, hblocks, happly]

def noAnswer : List Event → HttpRequest → Response := fun _ _ => ⟨204, [], [], .body []⟩

/-- An entry made by one block and named by the next. -/
def entryBlocks : List (List Representation) :=
  [[.literal .incremental (.text ⟨false, [97]⟩) ⟨false, [98]⟩], [.indexed 62]]

/-- A block that makes an entry, and one that takes the table down to nothing and up again. -/
def dipBlocks : List (List Representation) :=
  [[.literal .incremental (.text ⟨false, [97]⟩) ⟨false, [98]⟩], [.sizeUpdate 0, .sizeUpdate 4096]]

/-- A server that reads one block on stream 1 and one on stream 3. -/
def readTwo (blocks : List (List Representation)) : Http2Connection :=
  (run noAnswer [.take, .take]
    [wholeHeaders 1 (blocks.getD 0 []), wholeHeaders 3 (blocks.getD 1 [])] (start true maxBody)).2

theorem followed_entry : Followed .initial (entryBlocks.getD 0 [])
    ⟨[([97], [98])], 4096⟩ [([97], [98])] where
  legible := by
    refine ⟨⟨⟨⟨['b'], by rfl⟩, by decide⟩, ?_, ?_⟩, fun _ _ _ => trivial⟩
    · intro literal h
      cases h
      exact ⟨⟨['a'], by rfl⟩, by decide⟩
    · intro octets h
      cases h
      rfl
  ascii := by
    have hentered : entersAll .initial (entryBlocks.getD 0 []) = [([97], [98])] := by
      rfl
    rw [hentered]
    simp [AsciiField, IsAscii]
  settles := by
    unfold Settles
    rfl
  listed := by decide

theorem followed_named : Followed ⟨[([97], [98])], 4096⟩ (entryBlocks.getD 1 [])
    ⟨[([97], [98])], 4096⟩ [([97], [98])] where
  legible := ⟨trivial, fun _ _ _ => trivial⟩
  ascii := by
    have hentered : entersAll ⟨[([97], [98])], 4096⟩ (entryBlocks.getD 1 []) = [] := by
      rfl
    rw [hentered]
    simp
  settles := by
    unfold Settles
    rfl
  listed := by decide

theorem session_headersInStep_entry :
    HeadersInStep
      ((readTwo entryBlocks).log.foldl (HeaderReading.hear true) { blocks := entryBlocks })
      (readTwo entryBlocks) := by
  have hreads : readsOf (readTwo entryBlocks).log =
      [(0, [], wholeHeaders 1 (entryBlocks.getD 0 [])),
        (1, [], wholeHeaders 3 (entryBlocks.getD 1 []))] := by
    rfl
  have hfirst : applyAll .initial (entryBlocks.getD 0 []) =
      some (⟨[([97], [98])], 4096⟩, [([97], [98])]) := by
    rfl
  have hsecond : applyAll ⟨[([97], [98])], 4096⟩ (entryBlocks.getD 1 []) =
      some (⟨[([97], [98])], 4096⟩, [([97], [98])]) := by
    rfl
  have hhear : HeaderReading.hear true { blocks := entryBlocks }
      (readEvent (0, [], wholeHeaders 1 (entryBlocks.getD 0 []))) = _ :=
    hear_wholeHeaders true { blocks := entryBlocks } 0 1 [] _ _ _ _ (by decide)
      (by decide) rfl hfirst
  apply session_headersInStep
  · apply along_reads (encoded_unread true)
    refine hreads ▸ ⟨?_, ?_, trivial⟩
    · exact encoded_wholeHeaders _ _ _ _ _ _ _ (by decide) (by decide) rfl rfl
        (Option.isSome_of_mem hfirst)
    · rw [hhear]
      exact encoded_wholeHeaders _ _ _ _ _ _ _ (by decide) (by decide) rfl rfl
        (Option.isSome_of_mem hsecond)
  · apply along_reads (follows_unread true)
    refine hreads ▸ ⟨?_, ?_, trivial⟩
    · exact follows_wholeHeaders _ _ _ _ _ _ _ _ _ (by decide) (by decide) rfl hfirst
        followed_entry
    · rw [hhear]
      exact follows_wholeHeaders _ _ _ _ _ _ _ _ _ (by decide) (by decide) rfl hsecond
        followed_named

/-- Size updates that take the table down and up again within one block leave an entry in
the decoder's table that the protocol's table has dropped. -/
theorem session_headersOutOfStep :
    Along (Encoded true) (HeaderReading.hear true) { blocks := dipBlocks }
        (readTwo dipBlocks).log ∧
      (readTwo dipBlocks).goingAway = false ∧
      (readTwo dipBlocks).decoder.table.entries.map octetField ≠
        ((readTwo dipBlocks).log.foldl (HeaderReading.hear true)
          { blocks := dipBlocks }).table.entries := by
  refine ⟨?_, by decide +kernel, by decide +kernel⟩
  have hreads : readsOf (readTwo dipBlocks).log =
      [(0, [], wholeHeaders 1 (dipBlocks.getD 0 [])),
        (1, [], wholeHeaders 3 (dipBlocks.getD 1 []))] := by
    decide +kernel
  have hfirst : applyAll .initial (dipBlocks.getD 0 []) =
      some (⟨[([97], [98])], 4096⟩, [([97], [98])]) := by
    rfl
  have hsecond : (applyAll ⟨[([97], [98])], 4096⟩ (dipBlocks.getD 1 [])).isSome = true := by
    rfl
  apply along_reads (encoded_unread true)
  refine hreads ▸ ⟨?_, ?_, trivial⟩
  · exact encoded_wholeHeaders _ _ _ _ _ _ _ (by decide) (by decide) rfl rfl
      (Option.isSome_of_mem hfirst)
  · have hhear : HeaderReading.hear true { blocks := dipBlocks }
        (readEvent (0, [], wholeHeaders 1 (dipBlocks.getD 0 []))) = _ :=
      hear_wholeHeaders true { blocks := dipBlocks } 0 1 [] _ _ _ _ (by decide)
        (by decide) rfl hfirst
    rw [hhear]
    exact encoded_wholeHeaders _ _ _ _ _ _ _ (by decide) (by decide +kernel) rfl rfl hsecond

end Zuri.Http.H2
