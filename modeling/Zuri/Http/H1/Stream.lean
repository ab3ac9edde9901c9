import Zuri.Transition.Follow

/-!
The reading half of a connection. What has been read off the transport is buffered, with a
position up to which it has been consumed; `arriving` are the reads still to come. A read
waits, one chunk after another, until what is buffered decides it or the peer is done.
-/

namespace Zuri.Http.H1

open Transition

/-- `unfinished` is no answer of the program: a loop was given too few turns. -/
inductive Failure where
  | tooLarge (message : String)
  | protocol (message : String)
  | unfinished
  deriving DecidableEq, Repr

structure Stream where
  buf : List UInt8 := []
  pos : Nat := 0
  eof : Bool := false
  arriving : List (List UInt8)

namespace Stream

def compactThreshold : Nat := 32768

def buffered (s : Stream) : Nat := s.buf.length - s.pos

def unread (s : Stream) : List UInt8 := s.buf.drop s.pos

def compact (s : Stream) : Stream :=
  if s.pos = s.buf.length then { s with buf := [], pos := 0 }
  else if compactThreshold ≤ s.pos then { s with buf := s.buf.drop s.pos, pos := 0 }
  else s

def takeChunk (s : Stream) (chunk : List UInt8) : Nat × Stream :=
  if chunk.length = 0 then (0, { s with eof := true })
  else (chunk.length, { s with buf := s.buf ++ chunk })

/-- After the last chunk the peer has closed its write half. -/
def fill (s : Stream) : Nat × Stream :=
  if s.eof then (0, s)
  else
    match s.arriving with
    | [] => s.compact.takeChunk []
    | chunk :: arriving => { s.compact with arriving }.takeChunk chunk

def advance (s : Stream) (count : Nat) : Stream := { s with pos := s.pos + count }

theorem compact_arriving (s : Stream) : s.compact.arriving = s.arriving := by
  unfold compact
  split
  · rfl
  · split <;> rfl

theorem takeChunk_arriving (s : Stream) (chunk : List UInt8) :
    (s.takeChunk chunk).2.arriving = s.arriving := by
  unfold takeChunk
  split <;> rfl

theorem fill_arriving (s : Stream) (h : (s.fill).1 ≠ 0) :
    (s.fill).2.arriving.length < s.arriving.length := by
  unfold fill at h ⊢
  split
  · simp_all
  · split
    · simp_all [takeChunk]
    · rename_i heq
      rw [takeChunk_arriving, heq]
      exact Nat.lt_succ_self _

/-- Waits until what is buffered decides: `ready` is given how much of it has been scanned
before, and `ended` answers if the peer is done. -/
def await {α : Type} (ready : Nat → Stream → Option (Except Failure α × Stream))
    (ended : Stream → Except Failure α) (scanned : Nat) (s : Stream) : Except Failure α × Stream :=
  match ready scanned s with
  | some result => result
  | none =>
      if _ : (s.fill).1 = 0 then (ended (s.fill).2, (s.fill).2)
      else await ready ended s.buffered (s.fill).2
  termination_by s.arriving.length
  decreasing_by exact fill_arriving s ‹_›

/-- A line without its terminator, which is LF or CR LF. -/
def chomp (line : List UInt8) : List UInt8 :=
  if line.getLast? = some 13 then line.dropLast else line

/-- The first LF in what is unread is searched for from where the last search ended. -/
def findLine (limit scanned : Nat) (s : Stream) :
    Option (Except Failure (Option (List UInt8)) × Stream) :=
  match (s.unread.drop scanned).idxOf? 10 with
  | some lf => some (.ok (some (chomp (s.unread.take (scanned + lf)))), s.advance (scanned + lf + 1))
  | none =>
      if limit < s.buffered then some (.error (.tooLarge s!"line exceeds the {limit} byte limit"), s)
      else none

def readLine (limit : Nat) : ExceptT Failure (StateM Stream) (Option (List UInt8)) :=
  fun s => await (findLine limit)
    (fun s => if s.buffered = 0 then .ok none
      else .error (.protocol "connection closed in the middle of a line")) 0 s

def readExactly (length : Nat) : ExceptT Failure (StateM Stream) (List UInt8) :=
  fun s => await
    (fun _ s => if length ≤ s.buffered then some (.ok (s.unread.take length), s.advance length)
      else none)
    (fun s => .error (.protocol
      s!"connection closed after {s.buffered} of {length} expected bytes")) 0 s

/-- What belongs together: the stream has not lost a byte, wherever the bytes are. -/
structure Holds (s : Stream) (bytes : List UInt8) : Prop where
  pos : s.pos ≤ s.buf.length
  bytes : s.unread ++ s.arriving.flatten = bytes
  whole : ∀ chunk ∈ s.arriving, chunk ≠ []
  eof : s.eof = true → s.arriving = []

variable {s : Stream} {bytes : List UInt8}

theorem compact_unread (s : Stream) (h : s.pos ≤ s.buf.length) :
    s.compact.unread = s.unread ∧ s.compact.pos ≤ s.compact.buf.length ∧
      s.compact.eof = s.eof := by
  unfold compact
  split
  · rename_i heq
    simp [unread, heq]
  · split
    · simp [unread]
    · exact ⟨rfl, h, rfl⟩

theorem length_unread (s : Stream) : s.unread.length = s.buffered := List.length_drop

/-- A read brings in the next chunk, or there is none. -/
theorem Holds.fill (h : Holds s bytes) :
    (s.fill).1 = 0 ∧ s.unread = bytes ∧ (s.fill).2.unread = bytes ∧ Holds (s.fill).2 bytes ∨
      (s.fill).1 ≠ 0 ∧ (∃ chunk, (s.fill).2.unread = s.unread ++ chunk) ∧
        Holds (s.fill).2 bytes := by
  obtain ⟨hunread, hpos, heof⟩ := compact_unread s h.pos
  unfold Stream.fill
  split
  · rename_i hdone
    have hall := h.bytes
    rw [h.eof hdone, List.flatten_nil, List.append_nil] at hall
    exact .inl ⟨rfl, hall, hall, h⟩
  · split
    · rename_i hnone
      have hall := h.bytes
      rw [hnone, List.flatten_nil, List.append_nil] at hall
      refine .inl ⟨rfl, hall, hunread.trans hall, hpos, ?_, ?_, fun _ => ?_⟩
      · change s.compact.unread ++ s.compact.arriving.flatten = bytes
        rw [hunread, compact_arriving]
        exact h.bytes
      · change ∀ chunk ∈ s.compact.arriving, chunk ≠ []
        rw [compact_arriving]
        exact h.whole
      · change s.compact.arriving = []
        rw [compact_arriving, hnone]
    · rename_i hnot _ chunk arriving harriving
      have hchunk : chunk ≠ [] := h.whole chunk (by rw [harriving]; exact List.mem_cons_self)
      have hlength : chunk.length ≠ 0 := fun hzero => hchunk (List.length_eq_zero_iff.mp hzero)
      have hmore : (s.compact.buf ++ chunk).drop s.compact.pos = s.unread ++ chunk := by
        rw [List.drop_append_of_le_length hpos]
        exact congrArg (fun rest => rest ++ chunk) hunread
      rw [takeChunk, if_neg hlength]
      refine .inr ⟨hlength, ⟨chunk, hmore⟩, ?_, ?_, fun c hc => ?_, fun hdone => ?_⟩
      · change s.compact.pos ≤ (s.compact.buf ++ chunk).length
        rw [List.length_append]
        omega
      · change (s.compact.buf ++ chunk).drop s.compact.pos ++ arriving.flatten = bytes
        rw [hmore, List.append_assoc, ← h.bytes, harriving, List.flatten_cons]
      · exact h.whole c (by rw [harriving]; exact List.mem_cons_of_mem _ hc)
      · exact absurd (heof.symm.trans hdone) hnot

theorem Holds.advance (h : Holds s bytes) {count : Nat} (hcount : count ≤ s.buffered) :
    Holds (s.advance count) (bytes.drop count) := by
  have hpos := h.pos
  refine ⟨?_, ?_, h.whole, h.eof⟩
  · change s.pos + count ≤ s.buf.length
    rw [buffered] at hcount
    omega
  · change s.buf.drop (s.pos + count) ++ s.arriving.flatten = bytes.drop count
    rw [← h.bytes, List.drop_append_of_le_length (by rw [length_unread]; exact hcount), unread,
      List.drop_drop]

/-- A read that decides by what is unread gives the same however the bytes arrive, if every
decision on a part of them is the one on all of them. -/
theorem await_decided {α : Type} (ready : Nat → Stream → Option (Except Failure α × Stream))
    (ended : Stream → Except Failure α) (poll : List UInt8 → Option (Except Failure α × Nat))
    (answer : Except Failure α) (count : Nat)
    (hready : ∀ scanned s, scanned = 0 ∨ scanned ≤ s.buffered ∧
      poll (s.unread.take scanned) = none → ready scanned s =
        (poll s.unread).map fun result => (result.1, s.advance result.2))
    (hwithin : ∀ part result, poll part = some result → result.2 ≤ part.length)
    (hsame : ∀ part rest, part ++ rest = bytes → ∀ result, poll part = some result →
      result = (answer, count))
    (hended : poll bytes = none → ∀ s, s.unread = bytes → ended s = answer ∧ count = 0)
    {scanned : Nat} (hscanned : scanned = 0 ∨ scanned ≤ s.buffered ∧
      poll (s.unread.take scanned) = none) (h : Holds s bytes) :
    (await ready ended scanned s).1 = answer ∧
      Holds (await ready ended scanned s).2 (bytes.drop count) ∧
      (poll bytes = none ∨ ∃ part, poll part = some (answer, count) ∧
        (await ready ended scanned s).2.unread = part.drop count) := by
  induction hn : s.arriving.length using Nat.strongRecOn generalizing s scanned with
  | ind n ih =>
      rw [await, hready scanned s hscanned]
      cases hpoll : poll s.unread with
      | some result =>
          have hlength := hwithin _ _ hpoll
          rw [length_unread] at hlength
          have heq := hsame s.unread s.arriving.flatten h.bytes result hpoll
          subst heq
          exact ⟨rfl, h.advance hlength, .inr ⟨s.unread, hpoll, (List.drop_drop).symm⟩⟩
      | none =>
          simp only [Option.map_none]
          rcases h.fill with ⟨hzero, hall, hall', hnext⟩ | ⟨hmore, ⟨chunk, hunread⟩, hnext⟩
          · rw [dif_pos hzero]
            obtain ⟨hanswer, hcount⟩ := hended (hall ▸ hpoll) (s.fill).2 hall'
            rw [hcount]
            exact ⟨hanswer, hnext, .inl (hall ▸ hpoll)⟩
          · rw [dif_neg hmore]
            refine ih _ (hn ▸ fill_arriving s hmore) (.inr ⟨?_, ?_⟩) hnext rfl
            · rw [← length_unread, ← length_unread, hunread, List.length_append]
              omega
            · rw [hunread, ← length_unread, List.take_left']
              · exact hpoll
              · rfl

theorem await_same {α : Type} {ready : Nat → Stream → Option (Except Failure α × Stream)}
    {ended : Stream → Except Failure α} (poll : List UInt8 → Option (Except Failure α × Nat))
    {result : Except Failure α × Nat}
    (hready : ∀ scanned s, scanned = 0 ∨ scanned ≤ s.buffered ∧
      poll (s.unread.take scanned) = none → ready scanned s =
        (poll s.unread).map fun result => (result.1, s.advance result.2))
    (hwithin : ∀ part result, poll part = some result → result.2 ≤ part.length)
    (hsame : ∀ part rest, part ++ rest = bytes → ∀ found, poll part = some found → found = result)
    (hended : poll bytes = none → ∀ s, s.unread = bytes → ended s = result.1 ∧ result.2 = 0)
    (h : Holds s bytes) :
    (await ready ended 0 s).1 = result.1 ∧
      Holds (await ready ended 0 s).2 (bytes.drop result.2) := by
  obtain ⟨hanswer, hafter, _⟩ := await_decided ready ended poll result.1 result.2 hready
    hwithin hsame hended (.inl rfl) h
  exact ⟨hanswer, hafter⟩

end Stream

end Zuri.Http.H1
