import Zuri.Http.H1.Body
import Zuri.Http.H1.HeadLimits

/-!
What a connection yields does not depend on where the reads end, as long as no line and no
head is over a limit in part that it is not over as a whole. Whether a body is buffered is a
walk over the chunks that resumes where the last one ended.
-/

namespace Zuri.Http.H1

open Transition

def headClosed : String := "connection closed inside the header section"

/-- How an error in a head is raised. -/
def raised (message : String) : Failure :=
  if 1 < (message.splitOn "limit").length then .tooLarge message else .protocol message

namespace Stream

def readRequestHead (p : Platform) (limits : Limits) :
    ExceptT Failure (StateM Stream) (Option (Except String (Fields × Nat))) :=
  fun s => await
    (fun _ s => if s.unread = [] then none
      else (parseData p limits s.unread).map fun parsed => (.ok (some parsed), s))
    (fun s => if s.buffered = 0 then .ok none else .ok (some (.error headClosed))) 0 s.compact

/-- The head is dropped once it is known to be good. -/
def takeRequestHead (p : Platform) (limits : Limits) :
    ExceptT Failure (StateM Stream) (Option Fields) := do
  match ← readRequestHead p limits with
  | none => pure none
  | some (.error message) => throw (raised message)
  | some (.ok (fields, consumed)) =>
      modify fun s => s.advance consumed
      pure (some fields)

end Stream

def connection (p : Platform) (limits : Limits) : Source Stream where
  readRequestHead := Stream.takeRequestHead p limits
  readLine := Stream.readLine
  readExactly := Stream.readExactly

/-- All the bytes at once, and whether every line and head so far was within its limits. -/
structure Flat where
  bytes : List UInt8
  fits : Bool := true

/-- A line that ends is not longer than the limit, its CR counted. -/
def lineFits (limit : Nat) (bytes : List UInt8) : Bool :=
  match bytes.idxOf? 10 with
  | some lf => decide (lf ≤ limit)
  | none => true

namespace Flat

/-- Takes the answer to a read and drops what it consumed. -/
def answer {α : Type} (b : Flat) (fits : Bool) (result : Except Failure α × Nat) :
    Except Failure α × Flat :=
  (result.1, ⟨b.bytes.drop result.2, b.fits && fits⟩)

def line (limit : Nat) (bytes : List UInt8) : Except Failure (Option (List UInt8)) × Nat :=
  match bytes.idxOf? 10 with
  | some lf => (.ok (some (Stream.chomp (bytes.take lf))), lf + 1)
  | none =>
      if limit < bytes.length then (.error (.tooLarge s!"line exceeds the {limit} byte limit"), 0)
      else if bytes = [] then (.ok none, 0)
      else (.error (.protocol "connection closed in the middle of a line"), 0)

def exactly (length : Nat) (bytes : List UInt8) : Except Failure (List UInt8) × Nat :=
  if length ≤ bytes.length then (.ok (bytes.take length), length)
  else
    let arrived := bytes.length
    (.error (.protocol s!"connection closed after {arrived} of {length} expected bytes"), 0)

def head (p : Platform) (limits : Limits) (bytes : List UInt8) :
    Except Failure (Option Fields) × Nat :=
  if bytes = [] then (.ok none, 0)
  else
    match parseData p limits bytes with
    | none => (.error (raised headClosed), 0)
    | some (.error message) => (.error (raised message), 0)
    | some (.ok (fields, consumed)) => (.ok (some fields), consumed)

end Flat

def allAtOnce (p : Platform) (limits : Limits) : Source Flat where
  readRequestHead := fun b => b.answer (headFits p limits b.bytes) (Flat.head p limits b.bytes)
  readLine := fun limit b => b.answer (lineFits limit b.bytes) (Flat.line limit b.bytes)
  readExactly := fun length b => b.answer true (Flat.exactly length b.bytes)

/-- A connection and all of its bytes at once. -/
def sameBytes : Pair Stream Flat where
  Rel s b := s.Holds b.bytes
  Well b := b.fits = true

variable {p : Platform} {limits : Limits} {σ τ α : Type}

theorem follows_read {f : ExceptT Failure (StateM Stream) α} (fits : List UInt8 → Bool)
    {result : List UInt8 → Except Failure α × Nat}
    (h : ∀ s bytes, fits bytes = true → Stream.Holds s bytes →
      (runFrom f s).1 = (result bytes).1 ∧
        Stream.Holds (runFrom f s).2 (bytes.drop (result bytes).2)) :
    Follows sameBytes f fun b => b.answer (fits b.bytes) (result b.bytes) := by
  intro s b hwell
  have hboth : b.fits = true ∧ fits b.bytes = true := by
    simpa only [Bool.and_eq_true] using (show (b.fits && fits b.bytes) = true from hwell)
  exact ⟨hboth.1, fun hrel => h s b.bytes hboth.2 hrel⟩

theorem line_poll_none {limit : Nat} {part : List UInt8}
    (h : (match part.idxOf? 10 with
      | some lf => some ((.ok (some (Stream.chomp (part.take lf))), lf + 1) :
          Except Failure (Option (List UInt8)) × Nat)
      | none => if limit < part.length then
          some (.error (.tooLarge s!"line exceeds the {limit} byte limit"), 0) else none) = none) :
    10 ∉ part := by
  split at h
  · cases h
  · rename_i hnone
    exact List.idxOf?_eq_none_iff.mp hnone

theorem firstLf_drop {bytes : List UInt8} {n f : Nat} (hn : 10 ∉ bytes.take n)
    (h : (bytes.drop n).idxOf? 10 = some f) : bytes.idxOf? 10 = some (n + f) := by
  obtain ⟨hten, hbefore⟩ := idxOf?_firstLf.mp h
  rw [List.getElem?_drop] at hten
  refine idxOf?_firstLf.mpr ⟨hten, fun hmem => ?_⟩
  rw [List.take_add, List.mem_append] at hmem
  exact hmem.elim hn hbefore

theorem follows_readLine (limit : Nat) :
    Follows sameBytes (Stream.readLine limit)
      fun b => b.answer (lineFits limit b.bytes) (Flat.line limit b.bytes) := by
  refine follows_read _ fun s bytes hfits hholds => ?_
  refine Stream.await_same (fun part => match part.idxOf? 10 with
      | some lf => some (.ok (some (Stream.chomp (part.take lf))), lf + 1)
      | none => if limit < part.length then
          some (.error (.tooLarge s!"line exceeds the {limit} byte limit"), 0) else none)
    (fun scanned s hscanned => ?_) (fun part result hpoll => ?_)
    (fun part rest hparts result hpoll => ?_) (fun hpoll s hs => ?_) hholds
  · have hnone : 10 ∉ s.unread.take scanned := by
      rcases hscanned with rfl | ⟨_, hpoll⟩
      · simp
      · exact line_poll_none hpoll
    unfold Stream.findLine
    cases hidx : (s.unread.drop scanned).idxOf? 10 with
    | some f => simp only [firstLf_drop hnone hidx, Option.map_some]
    | none =>
        have hall : s.unread.idxOf? 10 = none := by
          refine List.idxOf?_eq_none_iff.mpr fun hmem => ?_
          rw [← List.take_append_drop scanned s.unread, List.mem_append] at hmem
          exact hmem.elim hnone (List.idxOf?_eq_none_iff.mp hidx)
        rw [hall, Stream.length_unread]
        simp only
        split <;> rfl
  · split at hpoll
    · rename_i lf hidx
      cases hpoll
      exact (idxOf?_firstLf.mp hidx).lt_length
    · split at hpoll
      · cases hpoll
        exact Nat.zero_le _
      · cases hpoll
  · split at hpoll
    · rename_i lf hidx
      cases hpoll
      have hfirst := idxOf?_firstLf.mp hidx
      have hlt := hfirst.lt_length
      have hwhole : bytes.idxOf? 10 = some lf := idxOf?_firstLf.mpr (hparts ▸ hfirst.append rest)
      rw [Flat.line, hwhole]
      simp only
      rw [← hparts, List.take_append_of_le_length (Nat.le_of_lt hlt)]
    · rename_i hnone
      have hpart : 10 ∉ part := List.idxOf?_eq_none_iff.mp hnone
      have hlength : part.length ≤ bytes.length := by
        rw [← hparts, List.length_append]
        omega
      split at hpoll
      · rename_i hlong
        cases hpoll
        cases hidx : bytes.idxOf? 10 with
        | some lf =>
            have hfirst := idxOf?_firstLf.mp hidx
            rw [lineFits, hidx] at hfits
            have hshort : lf ≤ limit := of_decide_eq_true hfits
            have hin : part[lf]? = some 10 := by
              rw [← hfirst.1, ← hparts, List.getElem?_append_left (by omega)]
            exact absurd (List.mem_of_getElem? hin) hpart
        | none =>
            rw [Flat.line, hidx]
            simp only
            rw [if_pos (by omega)]
      · cases hpoll
  · split at hpoll
    · cases hpoll
    · rename_i hnone
      split at hpoll
      · cases hpoll
      · rename_i hshort
        rw [Flat.line, hnone, ← Stream.length_unread, hs]
        simp only [List.length_eq_zero_iff]
        rw [if_neg hshort]
        split <;> exact ⟨rfl, rfl⟩

theorem follows_readExactly (length : Nat) :
    Follows sameBytes (Stream.readExactly length)
      fun b => b.answer true (Flat.exactly length b.bytes) := by
  refine follows_read (fun _ => true) fun s bytes _ hholds => ?_
  refine Stream.await_same (fun part =>
      if length ≤ part.length then some (.ok (part.take length), length) else none)
    (fun scanned s _ => ?_) (fun part result hpoll => ?_)
    (fun part rest hparts result hpoll => ?_) (fun hpoll s hs => ?_) hholds
  · rw [Stream.length_unread]
    split <;> rfl
  · split at hpoll
    · rename_i hle
      cases hpoll
      exact hle
    · cases hpoll
  · split at hpoll
    · rename_i hle
      cases hpoll
      rw [Flat.exactly, if_pos (by rw [← hparts, List.length_append]; omega), ← hparts,
        List.take_append_of_le_length hle]
    · cases hpoll
  · split at hpoll
    · cases hpoll
    · rename_i hshort
      rw [Flat.exactly, if_neg hshort, ← Stream.length_unread, hs]
      exact ⟨rfl, rfl⟩

/-- The answer of `readRequestHead` when all the bytes are there. -/
def wholeHead (p : Platform) (limits : Limits) (bytes : List UInt8) :
    Option (Except String (Fields × Nat)) :=
  if bytes = [] then none
  else some ((parseData p limits bytes).getD (.error headClosed))

theorem parseData_within (hparse : Httparse p) {part : List UInt8} {fields : Fields}
    {consumed : Nat} (h : parseData p limits part = some (.ok (fields, consumed))) :
    consumed ≤ part.length := by
  unfold parseData at h
  split at h
  · cases h
  · cases h
  · obtain ⟨reason, _, hreason⟩ := Option.map_eq_some_iff.mp h
    cases hreason
  · rename_i head amount hstatus
    simp only at h
    split at h
    · cases h
    · split at h
      · cases h
      · cases hfields : fieldsOf p head with
        | error message =>
            rw [hfields] at h
            cases h
        | ok fields' =>
            rw [hfields] at h
            cases h
            exact (hparse.complete _ _ _ _ hstatus).1

theorem readRequestHead_same (hparse : Httparse p) {s : Stream} {bytes : List UInt8}
    (hfits : headFits p limits bytes = true) (hholds : s.Holds bytes) :
    (runFrom (Stream.readRequestHead p limits) s).1 = .ok (wholeHead p limits bytes) ∧
      Stream.Holds (runFrom (Stream.readRequestHead p limits) s).2 bytes ∧
      ∀ fields consumed, wholeHead p limits bytes = some (.ok (fields, consumed)) →
        consumed ≤ (runFrom (Stream.readRequestHead p limits) s).2.buffered := by
  have hcompact : Stream.Holds s.compact bytes := by
    obtain ⟨hunread, hpos, heof⟩ := Stream.compact_unread s hholds.pos
    refine ⟨hpos, ?_, ?_, fun hdone => ?_⟩
    · rw [hunread, Stream.compact_arriving]
      exact hholds.bytes
    · rw [Stream.compact_arriving]
      exact hholds.whole
    · rw [Stream.compact_arriving]
      exact hholds.eof (heof.symm.trans hdone)
  have hdecided := Stream.await_decided
    (fun _ s => if s.unread = [] then none
      else (parseData p limits s.unread).map fun parsed => (.ok (some parsed), s))
    (fun s => if s.buffered = 0 then .ok none else .ok (some (.error headClosed)))
    (fun part => if part = [] then none
      else (parseData p limits part).map fun parsed => (.ok (some parsed), 0))
    (.ok (wholeHead p limits bytes)) 0
    (fun _ s _ => ?_) (fun part result hpoll => ?_) (fun part rest hparts result hpoll => ?_)
    (fun hpoll s hs => ?_) (.inl rfl) hcompact
  · obtain ⟨hanswer, hafter, hlast⟩ := hdecided
    refine ⟨hanswer, hafter, fun fields consumed hwhole => ?_⟩
    rw [← Stream.length_unread]
    rcases hlast with hnone | ⟨part, hpoll, hunread⟩
    · rw [wholeHead] at hwhole
      split at hnone
      · rename_i hempty
        rw [if_pos hempty] at hwhole
        cases hwhole
      · rename_i hsome
        rw [if_neg hsome, Option.map_eq_none_iff.mp hnone] at hwhole
        cases hwhole
    · split at hpoll
      · cases hpoll
      · obtain ⟨parsed, hparsed, heq⟩ := Option.map_eq_some_iff.mp hpoll
        have hsame : some parsed = wholeHead p limits bytes := by
          injection heq with hfirst
          injection hfirst
        rw [hwhole] at hsame
        cases hsame
        change _ ≤ (Stream.await _ _ 0 s.compact).2.unread.length
        rw [hunread]
        exact parseData_within hparse hparsed
  · split
    · rfl
    · rw [Option.map_map]
      rfl
  · split at hpoll
    · cases hpoll
    · obtain ⟨parsed, _, rfl⟩ := Option.map_eq_some_iff.mp hpoll
      exact Nat.zero_le _
  · split at hpoll
    · cases hpoll
    · rename_i hne
      obtain ⟨parsed, hparsed, rfl⟩ := Option.map_eq_some_iff.mp hpoll
      have hall := parseData_same hparse hfits hparts hparsed
      have hne' : bytes ≠ [] := by
        rintro rfl
        exact hne (List.append_eq_nil_iff.mp hparts).1
      rw [wholeHead, if_neg hne', hall]
      rfl
  · refine ⟨?_, rfl⟩
    rw [wholeHead, ← Stream.length_unread, hs]
    split at hpoll
    · rename_i hempty
      rw [hempty]
      rfl
    · rename_i hne
      rw [if_neg (fun hzero => hne (List.length_eq_zero_iff.mp hzero)), if_neg hne,
        Option.map_eq_none_iff.mp hpoll]
      rfl

theorem head_eq (p : Platform) (limits : Limits) (bytes : List UInt8) :
    Flat.head p limits bytes = match wholeHead p limits bytes with
      | none => (.ok none, 0)
      | some (.error message) => (.error (raised message), 0)
      | some (.ok (fields, consumed)) => (.ok (some fields), consumed) := by
  unfold Flat.head wholeHead
  split
  · rfl
  · cases parseData p limits bytes with
    | none => rfl
    | some parsed =>
        cases parsed with
        | error message => rfl
        | ok result => rfl

theorem follows_readRequestHead (hparse : Httparse p) :
    Follows sameBytes (Stream.takeRequestHead p limits)
      fun b => b.answer (headFits p limits b.bytes) (Flat.head p limits b.bytes) := by
  refine follows_read _ fun s bytes hfits hholds => ?_
  obtain ⟨hanswer, hafter, hwithin⟩ := readRequestHead_same hparse hfits hholds
  rw [Stream.takeRequestHead, runFrom_bind, hanswer, head_eq]
  cases hwhole : wholeHead p limits bytes with
  | none => exact ⟨rfl, hafter⟩
  | some parsed =>
      cases parsed with
      | error message => exact ⟨rfl, hafter⟩
      | ok result =>
          obtain ⟨fields, consumed⟩ := result
          exact ⟨rfl, hafter.advance (hwithin fields consumed hwhole)⟩

/-- Two connections whose reads follow each other. -/
structure SameReads (P : Pair σ τ) (source : Source σ) (flat : Source τ) : Prop where
  head : Follows P source.readRequestHead flat.readRequestHead
  line : ∀ limit, Follows P (source.readLine limit) (flat.readLine limit)
  exactly : ∀ length, Follows P (source.readExactly length) (flat.readExactly length)

theorem sameReads (hparse : Httparse p) :
    SameReads sameBytes (connection p limits) (allAtOnce p limits) :=
  ⟨follows_readRequestHead hparse, follows_readLine, follows_readExactly⟩

section

variable {P : Pair σ τ} {source : Source σ} {flat : Source τ}

theorem follows_lift (result : Except Failure α) : Follows P (lift (σ := σ) result) (lift result) := by
  cases result with
  | ok a => exact follows_pure a
  | error e => exact follows_throw e

theorem follows_readTrailers (h : SameReads P source flat) (r : BodyReader) (turns : Nat) :
    Follows P (readTrailers source p r turns) (readTrailers flat p r turns) := by
  induction turns generalizing r with
  | zero => exact follows_throw _
  | succ turns ih =>
      refine (h.line 8192).bind fun line => ?_
      cases line with
      | none => exact follows_throw _
      | some bytes =>
          simp only
          split
          · exact follows_pure r
          · exact (follows_lift _).bind fun field => ih _

theorem follows_chunkSize (h : SameReads P source flat) (r : BodyReader) :
    Follows P (chunkSize source p r) (chunkSize flat p r) := by
  unfold chunkSize
  split
  · refine (h.line 4096).bind fun line => ?_
    cases line with
    | none => exact follows_throw _
    | some bytes => exact follows_lift _
  · exact follows_pure _

theorem follows_endOfChunk (h : SameReads P source flat) :
    Follows P (endOfChunk source) (endOfChunk flat) := by
  refine (h.line 2).bind fun line => ?_
  split
  · exact follows_pure ()
  · exact follows_throw _

theorem follows_readChunked (h : SameReads P source flat) (turns : Nat) (r : BodyReader)
    (length : Nat) :
    Follows P (readChunked source p turns r length) (readChunked flat p turns r length) := by
  refine (follows_chunkSize h r).bind fun size => ?_
  split
  · exact (follows_readTrailers h r turns).bind fun r => follows_pure _
  · refine (h.exactly _).bind fun chunk => ?_
    split
    · exact (follows_endOfChunk h).bind fun _ => follows_pure _
    · exact follows_pure _

theorem follows_readBody (h : SameReads P source flat) (turns : Nat) (r : BodyReader)
    (length : Nat) : Follows P (read source p turns r length) (read flat p turns r length) := by
  unfold read
  split
  · exact follows_pure _
  · split
    · exact (h.exactly _).bind fun chunk => follows_pure _
    · exact follows_readChunked h turns r length
    · exact follows_pure _

theorem follows_readOn (h : SameReads P source flat) (limit turns : Nat) (r : BodyReader)
    (result : List UInt8) (more : Nat) :
    Follows P (readOn source p limit turns r result more)
      (readOn flat p limit turns r result more) := by
  induction more generalizing r result with
  | zero => exact follows_throw _
  | succ more ih =>
      refine (follows_readBody h turns r streamChunk).bind fun chunk => ?_
      split
      · exact follows_pure _
      · split
        · exact follows_throw _
        · exact ih _ _

theorem follows_readAll (h : SameReads P source flat) (limit turns : Nat) (r : BodyReader) :
    Follows P (readAll source p limit turns r) (readAll flat p limit turns r) := by
  unfold readAll
  split
  · exact follows_throw _
  · exact follows_readOn h limit turns r [] turns

theorem follows_nextRequest (p : Platform) (limits : Limits) (h : SameReads P source flat)
    (turns : Nat) :
    Follows P (nextRequest source p limits turns) (nextRequest flat p limits turns) := by
  refine h.head.bind fun head => ?_
  cases head with
  | none => exact follows_pure none
  | some fields =>
      refine (follows_lift _).bind fun reader => ?_
      exact (follows_readAll h _ turns reader).bind fun body => follows_pure _

/-- Whole connections. -/
theorem requests_follow (h : SameReads P source flat) (turns more : Nat) (s : σ) (t : τ)
    (hwell : P.Well (requests flat p limits turns more t).2) :
    P.Well t ∧ (P.Rel s t → (requests source p limits turns more s).1 =
      (requests flat p limits turns more t).1) := by
  induction more generalizing s t with
  | zero => exact ⟨hwell, fun _ => rfl⟩
  | succ more ih =>
      have hnext := follows_nextRequest p limits h turns s t
      rw [requests] at hwell ⊢
      rw [requests]
      generalize runFrom (nextRequest source p limits turns) s = left at *
      generalize runFrom (nextRequest flat p limits turns) t = right at *
      obtain ⟨out, s'⟩ := left
      obtain ⟨out', t'⟩ := right
      cases out' with
      | error e =>
          obtain ⟨hbefore, hsame⟩ := hnext hwell
          refine ⟨hbefore, fun hrel => ?_⟩
          obtain ⟨rfl, _⟩ := hsame hrel
          rfl
      | ok found =>
          cases found with
          | none =>
              obtain ⟨hbefore, hsame⟩ := hnext hwell
              refine ⟨hbefore, fun hrel => ?_⟩
              obtain ⟨rfl, _⟩ := hsame hrel
              rfl
          | some request =>
              obtain ⟨hmiddle, hrest⟩ := ih s' t' hwell
              obtain ⟨hbefore, hsame⟩ := hnext hmiddle
              refine ⟨hbefore, fun hrel => ?_⟩
              obtain ⟨rfl, hafter⟩ := hsame hrel
              simp only [hrest hafter]

end

/-- What the connection yields from reads that end where the cut says. -/
def yielded (p : Platform) (limits : Limits) (turns : Nat) (cut : List (List UInt8)) :
    List Request × Option Failure :=
  (requests (connection p limits) p limits turns turns { arriving := cut }).1

/-- Every line and every head that is read is within its limit in each of its parts, or
over the same limit as a whole. -/
def Fits (p : Platform) (limits : Limits) (turns : Nat) (bytes : List UInt8) : Prop :=
  (requests (allAtOnce p limits) p limits turns turns ⟨bytes, true⟩).2.fits = true

theorem yielded_all (hparse : Httparse p) {turns : Nat} {bytes : List UInt8}
    (hfits : Fits p limits turns bytes) {cut : List (List UInt8)} (hcut : cut.flatten = bytes)
    (hwhole : ∀ chunk ∈ cut, chunk ≠ []) :
    yielded p limits turns cut =
      (requests (allAtOnce p limits) p limits turns turns ⟨bytes, true⟩).1 := by
  refine (requests_follow (sameReads hparse) turns turns _ _ hfits).2 ⟨Nat.zero_le _, ?_, hwhole, ?_⟩
  · simpa [Stream.unread] using hcut
  · intro hdone
    cases hdone

/-- A character that has begun: its bits, the bytes it lacks, and the range of the next one. -/
structure Pending where
  bits : Nat
  lacks : Nat
  low : Nat
  high : Nat
  continues : 0x80 ≤ low

def startChar (b : Nat) : List Char × Option Pending :=
  if b < 0x80 then ([Char.ofNat b], none)
  else if 0xc2 ≤ b ∧ b ≤ 0xdf then ([], some ⟨b % 32, 1, 0x80, 0xbf, by decide⟩)
  else if b = 0xe0 then ([], some ⟨0, 2, 0xa0, 0xbf, by decide⟩)
  else if b = 0xed then ([], some ⟨13, 2, 0x80, 0x9f, by decide⟩)
  else if 0xe1 ≤ b ∧ b ≤ 0xef then ([], some ⟨b % 16, 2, 0x80, 0xbf, by decide⟩)
  else if b = 0xf0 then ([], some ⟨0, 3, 0x90, 0xbf, by decide⟩)
  else if b = 0xf4 then ([], some ⟨4, 3, 0x80, 0x8f, by decide⟩)
  else if 0xf1 ≤ b ∧ b ≤ 0xf3 then ([], some ⟨b % 8, 3, 0x80, 0xbf, by decide⟩)
  else (['\ufffd'], none)

def nextByte (pending : Option Pending) (b : Nat) : List Char × Option Pending :=
  match pending with
  | none => startChar b
  | some c =>
      if c.low ≤ b ∧ b ≤ c.high then
        if c.lacks ≤ 1 then ([Char.ofNat (c.bits * 64 + b % 64)], none)
        else ([], some ⟨c.bits * 64 + b % 64, c.lacks - 1, 0x80, 0xbf, by decide⟩)
      else ('\ufffd' :: (startChar b).1, (startChar b).2)

def decodeFrom : Option Pending → List UInt8 → List Char
  | none, [] => []
  | some _, [] => ['\ufffd']
  | pending, b :: bytes => (nextByte pending b.toNat).1 ++ decodeFrom (nextByte pending b.toNat).2 bytes

def fromUtf8Lossy (bytes : List UInt8) : String := String.ofList (decodeFrom none bytes)

/-- A platform whose text is the standard library's. -/
def Platform.decoding (p : Platform) : Platform := { p with lossy := fromUtf8Lossy }

/-- The longest chunk size line or trailer field worth waiting for. -/
def maxChunkLine : Nat := 8192

def BodyReader.new (mode : Mode) (length : Nat) : BodyReader :=
  { mode, length, remaining := length, finished := decide (mode = .empty) }

/-- How far a chunked body has been walked. -/
structure Scan where
  scanned : Nat := 0
  scannedSize : Nat := 0
  inTrailers : Bool := false
  overLimit : Bool := false

def findByte (unread : List UInt8) (value : UInt8) (offset : Nat) : Option Nat :=
  ((unread.drop offset).idxOf? value).map fun i => offset + i

def rtrim (c : Char) (text : String) : String :=
  String.ofList (text.toList.reverse.dropWhile fun d => d = c).reverse

section
variable (p : Platform)

def textBetween (unread : List UInt8) (start stop : Nat) : String :=
  p.lossy ((unread.drop start).take (stop - start))

/-- At most `turns` lines; more of them than there are bytes is enough. -/
def chunksBuffered (limit : Nat) (unread : List UInt8) : Nat → Scan → Bool × Scan
  | 0, scan => (false, scan)
  | turns + 1, scan =>
      match findByte unread 10 scan.scanned with
      | none => (decide (maxChunkLine < unread.length - scan.scanned), scan)
      | some lf =>
          let line := rtrim '\r' (textBetween p unread scan.scanned lf)
          if scan.inTrailers then
            if line.isEmpty then (true, { scan with scanned := lf + 1 })
            else chunksBuffered limit unread turns { scan with scanned := lf + 1 }
          else
            match parseChunkSize line with
            | .error _ => (true, scan)
            | .ok size =>
                if size = 0 then
                  chunksBuffered limit unread turns
                    { scan with inTrailers := true, scanned := lf + 1 }
                else if limit < scan.scannedSize + size then (true, { scan with overLimit := true })
                -- The chunk's data, and the CRLF that follows it.
                else if unread.length < lf + 1 + size + 2 then (false, scan)
                else
                  chunksBuffered limit unread turns
                    { scan with
                      scanned := lf + 1 + size + 2, scannedSize := scan.scannedSize + size }

def isBuffered (r : BodyReader) (limit : Nat) (s : Stream) (scan : Scan) : Bool × Scan :=
  match r.mode with
  | .length => (decide (r.remaining ≤ s.buffered), scan)
  | .chunked => chunksBuffered p limit s.unread (s.unread.length + 1) scan
  | .empty => (true, scan)

/-- Reading a body to its end, knowing what the walk has seen. -/
def readAllScanned {σ : Type} (source : Source σ) (limit turns : Nat) (r : BodyReader)
    (scan : Scan) : ExceptT Failure (StateM σ) (List UInt8 × BodyReader) :=
  if r.mode = .length ∧ limit < r.length then
    throw (.tooLarge s!"body of {r.length} bytes exceeds the {limit} byte limit")
  else if scan.overLimit then throw (.tooLarge s!"body exceeds the {limit} byte limit")
  else readOn source p limit turns r [] turns

end

end Zuri.Http.H1
