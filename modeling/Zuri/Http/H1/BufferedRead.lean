import Zuri.Http.H1.Cuts

/-!
Reading a chunked body out of the buffer alone. `Safe` bytes are those on which the reader comes
to an end, good or bad, before they run out.
-/

namespace Zuri.Http.H1

open Transition
open Zuri.Http.H1.Stream (chomp)

/-- A run that asks the transport for nothing, and ends as `Q` says or raises. -/
structure Runs {α : Type} (f : ExceptT Failure (StateM Stream) α) (s : Stream)
    (Q : α → Stream → Prop) : Prop where
  arriving : (runFrom f s).2.arriving = s.arriving
  eof : (runFrom f s).2.eof = s.eof
  returns : ∀ a, (runFrom f s).1 = .ok a → Q a (runFrom f s).2
  raises : (runFrom f s).1 ≠ .error .unfinished

section
variable {α β : Type} {s : Stream} {Q : α → Stream → Prop} {R : β → Stream → Prop}

theorem Runs.pure {a : α} (h : Q a s) : Runs (Pure.pure a) s Q where
  arriving := rfl
  eof := rfl
  returns b hb := by
    obtain rfl : a = b := Except.ok.inj hb
    exact h
  raises h := nomatch h

theorem Runs.throw {e : Failure} (h : e ≠ .unfinished) :
    Runs (MonadExcept.throw e : ExceptT Failure (StateM Stream) α) s Q where
  arriving := rfl
  eof := rfl
  returns _ hb := nomatch hb
  raises hb := h (Except.error.inj hb)

theorem Runs.bind {f : ExceptT Failure (StateM Stream) α}
    {k : α → ExceptT Failure (StateM Stream) β} (hf : Runs f s Q)
    (hk : ∀ a s', Q a s' → Runs (k a) s' R) : Runs (f >>= k) s R := by
  have hrun := runFrom_bind f k s
  cases hout : (runFrom f s).1 with
  | error e =>
      rw [hout] at hrun
      have hraise := hf.raises
      rw [hout] at hraise
      exact {
        arriving := by rw [hrun]; exact hf.arriving
        eof := by rw [hrun]; exact hf.eof
        returns := fun b hb => by rw [hrun] at hb; exact nomatch hb
        raises := by rw [hrun]; exact fun h => hraise (congrArg Except.error (Except.error.inj h)) }
  | ok a =>
      rw [hout] at hrun
      have hnext := hk a _ (hf.returns a hout)
      exact {
        arriving := by rw [hrun]; exact hnext.arriving.trans hf.arriving
        eof := by rw [hrun]; exact hnext.eof.trans hf.eof
        returns := fun b hb => by rw [hrun] at hb ⊢; exact hnext.returns b hb
        raises := by rw [hrun]; exact hnext.raises }

theorem Runs.imp {f : ExceptT Failure (StateM Stream) α} {Q' : α → Stream → Prop}
    (h : Runs f s Q) (hq : ∀ a s', Q a s' → Q' a s') : Runs f s Q' :=
  ⟨h.arriving, h.eof, fun a ha => hq a _ (h.returns a ha), h.raises⟩

theorem Runs.lift {x : Except Failure α} (h : ∀ a, x = .ok a → Q a s)
    (hraise : x ≠ .error .unfinished) : Runs (H1.lift x) s Q := by
  cases x with
  | ok a => exact Runs.pure (h a rfl)
  | error e => exact Runs.throw fun he => hraise (congrArg Except.error he)

theorem runs_await {ready : Nat → Stream → Option (Except Failure α × Stream)}
    {ended : Stream → Except Failure α} {out : Except Failure α} {s' : Stream}
    (h : ready 0 s = some (out, s')) (harriving : s'.arriving = s.arriving)
    (heof : s'.eof = s.eof) (hreturns : ∀ a, out = .ok a → Q a s')
    (hraises : out ≠ .error .unfinished) :
    Runs (fun s => Stream.await ready ended 0 s) s Q := by
  have hrun : runFrom (fun s => Stream.await ready ended 0 s :
      ExceptT Failure (StateM Stream) α) s = (out, s') := by
    change Stream.await ready ended 0 s = _
    rw [Stream.await, h]
  exact {
    arriving := by rw [hrun]; exact harriving
    eof := by rw [hrun]; exact heof
    returns := fun a ha => by rw [hrun] at ha ⊢; exact hreturns a ha
    raises := by rw [hrun]; exact hraises }

theorem unread_advance (s : Stream) (count : Nat) :
    (s.advance count).unread = s.unread.drop count := by
  change s.buf.drop (s.pos + count) = (s.buf.drop s.pos).drop count
  rw [List.drop_drop]

theorem idxOf?_line {line rest : List UInt8} (h : 10 ∉ line) :
    (line ++ 10 :: rest).idxOf? 10 = some line.length := by
  induction line with
  | nil => rfl
  | cons b line ih =>
      rw [List.mem_cons, not_or] at h
      have hb : ¬(b == 10) = true := by
        rw [beq_iff_eq]
        exact fun heq => h.1 heq.symm
      rw [List.cons_append, List.idxOf?_cons, if_neg hb, ih h.2]
      rfl

theorem idxOf?_none {bytes : List UInt8} (h : 10 ∉ bytes) : bytes.idxOf? 10 = none :=
  List.idxOf?_eq_none_iff.mpr h

theorem runs_readLine {limit : Nat} {line rest : List UInt8}
    (hs : s.unread = line ++ 10 :: rest) (hline : 10 ∉ line) :
    Runs (Stream.readLine limit) s fun a s' => a = some (chomp line) ∧ s'.unread = rest := by
  have htake : (line ++ 10 :: rest).take line.length = line := List.take_left
  have hready : Stream.findLine limit 0 s =
      some (.ok (some (chomp line)), s.advance (line.length + 1)) := by
    unfold Stream.findLine
    rw [List.drop_zero, hs, idxOf?_line hline]
    simp only [Nat.zero_add, htake]
  refine runs_await hready rfl rfl (fun a ha => ?_) (fun hbad => nomatch hbad)
  refine ⟨(Except.ok.inj ha).symm, ?_⟩
  rw [unread_advance, hs, ← List.drop_drop, List.drop_left]
  rfl

theorem runs_readLine_long {limit : Nat} (hs : 10 ∉ s.unread)
    (hlong : limit < s.unread.length) : Runs (Stream.readLine limit) s fun _ _ => False := by
  have hready : Stream.findLine limit 0 s =
      some (.error (.tooLarge s!"line exceeds the {limit} byte limit"), s) := by
    unfold Stream.findLine
    rw [List.drop_zero, idxOf?_none hs]
    rw [Stream.length_unread] at hlong
    simp only [if_pos hlong]
  exact runs_await hready rfl rfl (fun a ha => nomatch ha) (fun hbad => nomatch hbad)

theorem runs_readExactly {data rest : List UInt8} (hs : s.unread = data ++ rest) :
    Runs (Stream.readExactly data.length) s fun a s' => a = data ∧ s'.unread = rest := by
  have hlen : data.length ≤ s.buffered := by
    rw [← Stream.length_unread, hs, List.length_append]
    exact Nat.le_add_right _ _
  have hready : (if data.length ≤ s.buffered then
      some ((Except.ok (s.unread.take data.length) : Except Failure (List UInt8)),
        s.advance data.length) else none) = some (.ok data, s.advance data.length) := by
    rw [if_pos hlen, hs, List.take_left]
  refine runs_await hready rfl rfl (fun a ha => ?_) (fun hbad => nomatch hbad)
  refine ⟨(Except.ok.inj ha).symm, ?_⟩
  rw [unread_advance, hs, List.drop_left]

end

theorem chunkDigits_raises (line : String) (size : Nat) (digits : List Char) :
    chunkDigits line size digits ≠ .error .unfinished := by
  induction digits generalizing size with
  | nil => exact fun h => nomatch h
  | cons c digits ih =>
      rw [chunkDigits]
      cases hexDigit c with
      | none => exact fun h => nomatch h
      | some d =>
          simp only
          split
          · exact fun h => nomatch h
          · exact ih _

theorem parseChunkSize_raises (line : String) : parseChunkSize line ≠ .error .unfinished := by
  unfold parseChunkSize
  simp only
  split
  · exact fun h => nomatch h
  · exact chunkDigits_raises _ _ _

theorem trailerField_raises (line : String) : trailerField line ≠ .error .unfinished := by
  unfold trailerField
  simp only
  split
  · exact fun h => nomatch h
  · split
    · exact fun h => nomatch h
    · split
      · exact fun h => nomatch h
      · exact fun h => nomatch h

section
variable (p : Platform)

/-- What the reader makes of a line. -/
def lineText (line : List UInt8) : String := p.lossy (chomp line)

/-- Bytes that end a trailer section, or cannot go on with one. -/
inductive TrailersSafe : List UInt8 → Prop
  | long {bytes : List UInt8} : 10 ∉ bytes → 8192 < bytes.length → TrailersSafe bytes
  | done {line : List UInt8} (rest : List UInt8) : 10 ∉ line → (lineText p line).isEmpty = true →
      TrailersSafe (line ++ 10 :: rest)
  | bad {line : List UInt8} (rest : List UInt8) : 10 ∉ line →
      (∀ field, trailerField (lineText p line) ≠ .ok field) → TrailersSafe (line ++ 10 :: rest)
  | field {line rest : List UInt8} : 10 ∉ line → TrailersSafe rest →
      TrailersSafe (line ++ 10 :: rest)

/-- Bytes that cannot be the line break after a chunk. -/
inductive Broken : List UInt8 → Prop
  | long {bytes : List UInt8} : 10 ∉ bytes → 2 < bytes.length → Broken bytes
  | line {line : List UInt8} (rest : List UInt8) : 10 ∉ line → chomp line ≠ [] →
      Broken (line ++ 10 :: rest)

/-- Bytes that end a chunked body, or cannot go on with one. -/
inductive Safe : List UInt8 → Prop
  | long {bytes : List UInt8} : 10 ∉ bytes → 4096 < bytes.length → Safe bytes
  | bad {line : List UInt8} (rest : List UInt8) : 10 ∉ line →
      (∀ size, parseChunkSize (lineText p line) ≠ .ok size) → Safe (line ++ 10 :: rest)
  | last {line rest : List UInt8} : 10 ∉ line → parseChunkSize (lineText p line) = .ok 0 →
      TrailersSafe p rest → Safe (line ++ 10 :: rest)
  | broken {line data after : List UInt8} : 10 ∉ line →
      parseChunkSize (lineText p line) = .ok data.length → data ≠ [] → Broken after →
      Safe (line ++ 10 :: (data ++ after))
  | chunk {line data sep rest : List UInt8} : 10 ∉ line →
      parseChunkSize (lineText p line) = .ok data.length → data ≠ [] → 10 ∉ sep →
      chomp sep = [] → Safe rest → Safe (line ++ 10 :: (data ++ (sep ++ 10 :: rest)))

/-- What may follow the data of a chunk. -/
def AfterChunk (after : List UInt8) : Prop :=
  Broken after ∨ ∃ sep rest, after = sep ++ 10 :: rest ∧ 10 ∉ sep ∧ chomp sep = [] ∧ Safe p rest

/-- Safe bytes, with some of a chunk still to be read. -/
inductive SafeAt : Nat → List UInt8 → Prop
  | next {bytes : List UInt8} : Safe p bytes → SafeAt 0 bytes
  | within {data after : List UInt8} : data ≠ [] → AfterChunk p after →
      SafeAt data.length (data ++ after)

variable {p} {limits : Limits} {s : Stream}

theorem runs_readTrailers (r : BodyReader) {turns : Nat} (h : TrailersSafe p s.unread)
    (hturns : s.unread.length < turns) :
    Runs (readTrailers (connection p limits) p r turns) s fun _ _ => True := by
  induction turns generalizing r s with
  | zero => exact absurd hturns (Nat.not_lt_zero _)
  | succ turns ih =>
      rw [readTrailers]
      generalize hbytes : s.unread = bytes at h hturns
      cases h with
      | long hlf hlong =>
          subst hbytes
          exact Runs.bind (runs_readLine_long hlf hlong) fun _ _ hfalse => hfalse.elim
      | done rest hline hempty =>
          refine Runs.bind (runs_readLine hbytes hline) ?_
          rintro _ s' ⟨rfl, -⟩
          simp only [lineText] at hempty
          simp only [hempty, if_true]
          exact Runs.pure trivial
      | bad rest hline hbad =>
          refine Runs.bind (runs_readLine hbytes hline) ?_
          rintro _ s' ⟨rfl, -⟩
          simp only
          split
          · exact Runs.pure trivial
          · exact Runs.bind (Runs.lift (Q := fun _ _ => False) (fun field hfield => hbad field hfield)
              (trailerField_raises _)) fun _ _ hfalse => hfalse.elim
      | @field line rest hline hrest =>
          refine Runs.bind (runs_readLine hbytes hline) ?_
          rintro _ s' ⟨rfl, hs'⟩
          simp only
          split
          · exact Runs.pure trivial
          · refine Runs.bind (Runs.lift (Q := fun _ t => t = s') (fun _ _ => rfl)
              (trailerField_raises _)) ?_
            rintro a _ rfl
            refine ih _ (hs' ▸ hrest) ?_
            rw [List.length_append, List.length_cons] at hturns
            rw [hs']
            omega

/-- After a read that gave something, `inv` still holds of the reader and what is unread, which has
become less. -/
def ReadOn (inv : BodyReader → List UInt8 → Prop) (before : Nat) (a : List UInt8 × BodyReader)
    (s : Stream) : Prop :=
  a.1 = [] ∨ a.1 ≠ [] ∧ inv a.2 s.unread ∧ s.unread.length < before

theorem runs_readOn {inv : BodyReader → List UInt8 → Prop} {turns : Nat}
    (hread : ∀ (r : BodyReader) (s : Stream), inv r s.unread → s.unread.length < turns →
      Runs (read (connection p limits) p turns r streamChunk) s (ReadOn inv s.unread.length))
    (r : BodyReader) (h : inv r s.unread) {limit more : Nat} (result : List UInt8)
    (hturns : s.unread.length < turns) (hmore : s.unread.length < more) :
    Runs (readOn (connection p limits) p limit turns r result more) s fun _ _ => True := by
  induction more generalizing r s result with
  | zero => exact absurd hmore (Nat.not_lt_zero _)
  | succ more ih =>
      rw [readOn]
      refine Runs.bind (hread r s h hturns) ?_
      rintro a t (hnil | ⟨hne, hinv, hlen⟩)
      · rw [hnil, if_pos List.length_nil]
        exact Runs.pure trivial
      · rw [if_neg fun h => hne (List.length_eq_zero_iff.mp h)]
        split
        · exact Runs.throw fun h => nomatch h
        · exact ih _ hinv _ (by omega) (by omega)

/-- A chunked body of which safe bytes are unread. -/
def SafeReader (p : Platform) (r : BodyReader) (unread : List UInt8) : Prop :=
  r.mode = .chunked ∧ r.finished = false ∧ SafeAt p r.chunkRemaining unread

theorem runs_readData (r : BodyReader) (hmode : r.mode = .chunked) (hfinished : r.finished = false)
    {data after : List UInt8} (hs : s.unread = data ++ after) (hdata : data ≠ [])
    (hafter : AfterChunk p after) {length : Nat} (hlength : 0 < length) :
    Runs (do
      let want := if length < data.length then length else data.length
      let chunk ← (connection p limits).readExactly want
      if data.length - chunk.length = 0 then
        endOfChunk (connection p limits)
        Pure.pure (chunk, { r with chunkRemaining := 0 })
      else Pure.pure (chunk, { r with chunkRemaining := data.length - chunk.length })) s
      (ReadOn (SafeReader p) s.unread.length) := by
  have hpos := List.length_pos_iff.mpr hdata
  by_cases hless : length < data.length
  · -- a part of the chunk
    have hsplit : s.unread = data.take length ++ (data.drop length ++ after) := by
      rw [← List.append_assoc, List.take_append_drop]
      exact hs
    have htake : (data.take length).length = length := List.length_take_of_le (Nat.le_of_lt hless)
    simp only [if_pos hless]
    have hread := runs_readExactly hsplit
    rw [htake] at hread
    refine Runs.bind hread ?_
    rintro _ s' ⟨rfl, hs'⟩
    have hrest : ¬data.length - (data.take length).length = 0 := by omega
    rw [if_neg hrest]
    refine Runs.pure (.inr ⟨?_, ⟨hmode, hfinished, ?_⟩, ?_⟩)
    · intro hnil
      have hempty : data.take length = [] := hnil
      rw [hempty] at htake
      exact absurd htake (Nat.ne_of_lt hlength)
    · have hdrop : (data.drop length).length = data.length - (data.take length).length := by
        rw [List.length_drop, htake]
      change SafeAt p (data.length - (data.take length).length) s'.unread
      rw [← hdrop, hs']
      refine .within ?_ hafter
      apply List.ne_nil_of_length_pos
      omega
    · rw [hs', hs, List.length_append, List.length_append, List.length_drop]
      omega
  · simp only [if_neg hless]
    refine Runs.bind (runs_readExactly hs) ?_
    rintro _ s' ⟨rfl, hs'⟩
    rw [Nat.sub_self, if_pos rfl]
    refine Runs.bind (Q := fun _ t => Safe p t.unread ∧ t.unread.length ≤ s'.unread.length) ?_ ?_
    · unfold endOfChunk
      rcases hafter with hbroken | ⟨sep, rest, rfl, hsep, hchomp, hrest⟩
      · generalize hbytes : s'.unread = bytes at hs'
        subst hs'
        cases hbroken with
        | long hlf hlong =>
            subst hbytes
            exact Runs.bind (runs_readLine_long hlf hlong) fun _ _ hfalse => hfalse.elim
        | @line line rest hline hchomp =>
            refine Runs.bind (runs_readLine hbytes hline) ?_
            rintro _ t ⟨rfl, -⟩
            split
            · next heq => exact absurd (Option.some.inj heq) hchomp
            · exact Runs.throw fun h => nomatch h
      · refine Runs.bind (runs_readLine hs' hsep) ?_
        rintro _ t ⟨rfl, ht⟩
        rw [hchomp]
        refine Runs.pure ⟨ht ▸ hrest, ?_⟩
        rw [ht, hs', List.length_append, List.length_cons]
        omega
    · rintro _ t ⟨hsafe, hlen⟩
      refine Runs.pure (.inr ⟨hdata, ⟨hmode, hfinished, .next hsafe⟩, ?_⟩)
      rw [hs, List.length_append]
      rw [hs'] at hlen
      omega

theorem runs_read (r : BodyReader) (hr : SafeReader p r s.unread) {length turns : Nat}
    (hlength : 0 < length) (hturns : s.unread.length < turns) :
    Runs (read (connection p limits) p turns r length) s (ReadOn (SafeReader p) s.unread.length) := by
  obtain ⟨hmode, hfinished, h⟩ := hr
  rw [read, hfinished, hmode]
  simp only [Bool.false_eq_true, if_false]
  rw [readChunked]
  generalize hbytes : s.unread = bytes at h hturns
  generalize hcount : r.chunkRemaining = count at h
  cases h with
  | @within data after hdata hafter =>
      have hpos := List.length_pos_iff.mpr hdata
      have hsize : Runs (chunkSize (connection p limits) p r) s
          fun a t => a = data.length ∧ t = s := by
        rw [chunkSize, hcount, if_neg (Nat.ne_of_gt hpos)]
        exact Runs.pure ⟨rfl, rfl⟩
      refine Runs.bind hsize ?_
      rintro _ _ ⟨rfl, rfl⟩
      rw [if_neg (Nat.ne_of_gt hpos)]
      have hread := @runs_readData p limits _ r hmode hfinished _ _ hbytes hdata hafter length hlength
      rw [hbytes] at hread
      exact hread
  | next hsafe =>
      have hchunk : ∀ {line data after : List UInt8}, bytes = line ++ 10 :: (data ++ after) →
          10 ∉ line → parseChunkSize (lineText p line) = .ok data.length → data ≠ [] →
          AfterChunk p after → Runs (do
            let size ← chunkSize (connection p limits) p r
            if size = 0 then
              let r ← readTrailers (connection p limits) p r turns
              Pure.pure ([], { r with finished := true })
            else
              let want := if length < size then length else size
              let chunk ← (connection p limits).readExactly want
              if size - chunk.length = 0 then
                endOfChunk (connection p limits)
                Pure.pure (chunk, { r with chunkRemaining := 0 })
              else Pure.pure (chunk, { r with chunkRemaining := size - chunk.length })) s
            (ReadOn (SafeReader p) bytes.length) := by
        intro line data after hsplit hline hsize hdata hafter
        have hpos := List.length_pos_iff.mpr hdata
        have hfirst : Runs (chunkSize (connection p limits) p r) s
            fun a t => a = data.length ∧ t.unread = data ++ after := by
          rw [chunkSize, hcount, if_pos rfl]
          refine Runs.bind (runs_readLine (hbytes.trans hsplit) hline) ?_
          rintro _ t ⟨rfl, ht⟩
          refine Runs.lift (fun a ha => ⟨?_, ht⟩) (parseChunkSize_raises _)
          rw [lineText] at hsize
          exact Except.ok.inj (ha.symm.trans hsize)
        refine Runs.bind hfirst ?_
        rintro _ t ⟨rfl, ht⟩
        rw [if_neg (Nat.ne_of_gt hpos)]
        refine (runs_readData r hmode hfinished ht hdata hafter hlength).imp ?_
        rintro a t' (hnil | ⟨hne, hsafe, hlen⟩)
        · exact .inl hnil
        · refine .inr ⟨hne, hsafe, Nat.lt_of_lt_of_le hlen ?_⟩
          rw [ht, hsplit]
          simp only [List.length_append, List.length_cons]
          omega
      cases hsafe with
      | long hlf hlong =>
          subst hbytes
          have hfirst : Runs (chunkSize (connection p limits) p r) s fun _ _ => False := by
            rw [chunkSize, hcount, if_pos rfl]
            exact Runs.bind (runs_readLine_long hlf hlong) fun _ _ hfalse => hfalse.elim
          exact Runs.bind hfirst fun _ _ hfalse => hfalse.elim
      | @bad line rest hline hbad =>
          have hfirst : Runs (chunkSize (connection p limits) p r) s fun _ _ => False := by
            rw [chunkSize, hcount, if_pos rfl]
            refine Runs.bind (runs_readLine hbytes hline) ?_
            rintro _ t ⟨rfl, -⟩
            exact Runs.lift (fun size hsize => hbad size hsize) (parseChunkSize_raises _)
          exact Runs.bind hfirst fun _ _ hfalse => hfalse.elim
      | @last line rest hline hsize htrailers =>
          have hfirst : Runs (chunkSize (connection p limits) p r) s
              fun a t => a = 0 ∧ t.unread = rest := by
            rw [chunkSize, hcount, if_pos rfl]
            refine Runs.bind (runs_readLine hbytes hline) ?_
            rintro _ t ⟨rfl, ht⟩
            refine Runs.lift (fun a ha => ⟨?_, ht⟩) (parseChunkSize_raises _)
            rw [lineText] at hsize
            exact Except.ok.inj (ha.symm.trans hsize)
          refine Runs.bind hfirst ?_
          rintro _ t ⟨rfl, ht⟩
          rw [if_pos rfl]
          have hlen : t.unread.length < turns := by
            rw [List.length_append, List.length_cons] at hturns
            rw [ht]
            omega
          refine Runs.bind (runs_readTrailers r (ht ▸ htrailers) hlen) fun _ _ _ => ?_
          exact Runs.pure (.inl rfl)
      | broken hline hsize hdata hbroken =>
          exact hchunk rfl hline hsize hdata (.inl hbroken)
      | chunk hline hsize hdata hsep hchomp hrest =>
          exact hchunk rfl hline hsize hdata (.inr ⟨_, _, rfl, hsep, hchomp, hrest⟩)

/-- A body of a fixed length that is there. -/
def LengthReader (r : BodyReader) (unread : List UInt8) : Prop :=
  r.mode = .length ∧ r.remaining ≤ unread.length

theorem runs_readLength (r : BodyReader) (h : LengthReader r s.unread) {length turns : Nat} :
    Runs (read (connection p limits) p turns r length) s (ReadOn LengthReader s.unread.length) := by
  obtain ⟨hmode, hremaining⟩ := h
  rw [read]
  by_cases hfinished : r.finished = true
  · rw [if_pos hfinished]
    exact Runs.pure (.inl rfl)
  · rw [if_neg hfinished, hmode]
    simp only
    generalize hwant : (if length < r.remaining then length else r.remaining) = want
    have hle : want ≤ r.remaining := by
      rw [← hwant]
      split <;> omega
    have hlen : (s.unread.take want).length = want :=
      List.length_take_of_le (Nat.le_trans hle hremaining)
    have hread := runs_readExactly (List.take_append_drop want s.unread).symm
    rw [hlen] at hread
    refine Runs.bind hread ?_
    rintro _ t ⟨rfl, ht⟩
    refine Runs.pure ?_
    by_cases hnone : want = 0
    · subst hnone
      exact .inl rfl
    · have hne : s.unread.take want ≠ [] := List.ne_nil_of_length_pos (by omega)
      refine .inr ⟨hne, ⟨rfl, ?_⟩, ?_⟩
      · simp only [ht, hlen, List.length_drop]
        omega
      · rw [ht, List.length_drop]
        omega

end

end Zuri.Http.H1
