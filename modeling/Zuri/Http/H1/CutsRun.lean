import Zuri.Http.H1.Cuts

/-!
When where the reads end does not matter. For a line and for a head the condition on the
bytes is exact; for a whole connection it is that every line and head it reads meets its
own. A request line just as long as it may be shows what goes wrong otherwise.
-/

namespace Zuri.Http.H1

open Transition

variable {p : Platform} {limits : Limits} {bytes : List UInt8}

/-- A way of cutting the bytes into reads, none of which is empty. -/
structure CutOf (bytes : List UInt8) (cut : List (List UInt8)) : Prop where
  flatten : cut.flatten = bytes
  whole : ∀ chunk ∈ cut, chunk ≠ []

/-- The answer of a read at the start of a connection. -/
def readFrom {α : Type} (f : ExceptT Failure (StateM Stream) α) (cut : List (List UInt8)) :
    Except Failure α :=
  (runFrom f { arriving := cut }).1

theorem CutOf.holds {cut : List (List UInt8)} (h : CutOf bytes cut) :
    Stream.Holds { arriving := cut } bytes :=
  ⟨Nat.zero_le _, by simpa [Stream.unread] using h.flatten, h.whole, fun hdone => by cases hdone⟩

theorem cutOf_one (h : bytes ≠ []) : CutOf bytes [bytes] :=
  ⟨by simp, fun chunk hchunk => by rw [List.mem_singleton.mp hchunk]; exact h⟩

theorem cutOf_two {n : Nat} (hpos : 0 < n) (hn : n < bytes.length) :
    CutOf bytes [bytes.take n, bytes.drop n] := by
  refine ⟨by simp, fun chunk hchunk => ?_⟩
  rw [List.mem_cons, List.mem_singleton] at hchunk
  rcases hchunk with rfl | rfl
  · rw [← List.length_pos_iff, List.length_take]
    omega
  · rw [← List.length_pos_iff, List.length_drop]
    omega

/-- A read that needs the first chunk and is decided by it. -/
theorem await_first {α : Type} {ready : Nat → Stream → Option (Except Failure α × Stream)}
    {ended : Stream → Except Failure α} {chunk : List UInt8} {rest : List (List UInt8)}
    {answer : Except Failure α} (hchunk : chunk ≠ [])
    (hnone : ready 0 { arriving := chunk :: rest } = none)
    (hsome : (ready 0 { buf := chunk, arriving := rest }).map Prod.fst = some answer) :
    (Stream.await ready ended 0 { arriving := chunk :: rest }).1 = answer := by
  have hlength : chunk.length ≠ 0 := fun hzero => hchunk (List.length_eq_zero_iff.mp hzero)
  have hfill : ({ arriving := chunk :: rest } : Stream).fill =
      (chunk.length, { buf := chunk, arriving := rest }) := by
    simp [Stream.fill, Stream.compact, Stream.takeChunk, hlength]
  rw [Stream.await, hnone, dif_neg (by rw [hfill]; exact hlength), hfill, Stream.await]
  obtain ⟨result, hresult, rfl⟩ := Option.map_eq_some_iff.mp hsome
  simp only [show ({ arriving := chunk :: rest } : Stream).buffered = 0 from rfl, hresult]

theorem readLine_long {limit lf : Nat} (hlf : FirstLf bytes lf) (hlong : limit < lf) :
    readFrom (Stream.readLine limit) [bytes.take (limit + 1), bytes.drop (limit + 1)] =
      .error (.tooLarge s!"line exceeds the {limit} byte limit") := by
  have hlt := hlf.lt_length
  have hnot : 10 ∉ bytes.take (limit + 1) := by
    intro hmem
    obtain ⟨g, hg, hg'⟩ := exists_firstLf hmem
    have hsame := hlf.unique hg'
    omega
  refine await_first ?_ ?_ ?_
  · rw [← List.length_pos_iff, List.length_take]
    omega
  · simp [Stream.findLine, Stream.unread, Stream.buffered]
  · have hidx : (bytes.take (limit + 1)).idxOf? 10 = none := List.idxOf?_eq_none_iff.mpr hnot
    simp only [Stream.findLine, Stream.unread, Stream.buffered, List.drop_zero, hidx,
      List.length_take]
    rw [if_pos (by omega)]
    rfl

theorem readLine_whole {limit lf : Nat} (hlf : FirstLf bytes lf) :
    readFrom (Stream.readLine limit) [bytes] = .ok (some (Stream.chomp (bytes.take lf))) := by
  have hlt := hlf.lt_length
  refine await_first ?_ ?_ ?_
  · rintro rfl
    simp at hlt
  · simp [Stream.findLine, Stream.unread, Stream.buffered]
  · simp only [Stream.findLine, Stream.unread, List.drop_zero, idxOf?_firstLf.mpr hlf, Nat.zero_add,
      Option.map_some]

/-- A line does not depend on where the reads end exactly if it is within the limit, its CR
counted, or never ends. -/
theorem readLine_same_iff (limit : Nat) :
    (∀ cut other, CutOf bytes cut → CutOf bytes other →
      readFrom (Stream.readLine limit) cut = readFrom (Stream.readLine limit) other) ↔
    lineFits limit bytes = true := by
  constructor
  · intro hsame
    by_contra hfits
    cases hidx : bytes.idxOf? 10 with
    | none => exact hfits (by rw [lineFits, hidx])
    | some lf =>
        have hlf := idxOf?_firstLf.mp hidx
        have hlt := hlf.lt_length
        have hlong : limit < lf := by
          by_contra hle
          exact hfits (by rw [lineFits, hidx]; exact decide_eq_true (by omega))
        have hboth := hsame _ _ (cutOf_two (n := limit + 1) (by omega) (by omega))
          (cutOf_one (List.length_pos_iff.mp (by omega)))
        rw [readLine_long hlf hlong, readLine_whole hlf] at hboth
        cases hboth
  · intro hfits cut other hcut hother
    have hread : ∀ cut, CutOf bytes cut →
        readFrom (Stream.readLine limit) cut = (Flat.line limit bytes).1 := by
      intro cut hcut
      exact ((follows_readLine limit _ ⟨bytes, true⟩ hfits).2 hcut.holds).1
    rw [hread cut hcut, hread other hother]

/-- The first letter of a message tells the messages of a head apart. -/
def initial (message : String) : Option Char := message.toList.head?

theorem initial_append {message : String} {c : Char} (h : initial message = some c)
    (more : String) : initial (message ++ more) = some c := by
  rw [initial, String.toList_append, List.head?_append, show message.toList.head? = some c from h]
  rfl

theorem line_initial (limits : Limits) : initial limits.line = some 'l' :=
  initial_append (initial_append (show initial "line exceeds the " = some 'l' by decide) _) _

theorem section_initial (limits : Limits) : initial limits.section = some 'h' :=
  initial_append (initial_append (show initial "header section exceeds " = some 'h' by decide) _) _

theorem bind_error {α β : Type} {x : Except String α} {f : α → Except String β} {message : String}
    (h : x.bind f = .error message) :
    x = .error message ∨ ∃ a, x = .ok a ∧ f a = .error message := by
  cases x with
  | error e =>
      cases h
      exact .inl rfl
  | ok a => exact .inr ⟨a, rfl, h⟩

theorem initial_ne {message : String} {c : Char} (h : initial message = some c) (hc : c ≠ 'l') :
    initial message ≠ some 'l' := by
  rw [h]
  exact fun heq => hc (Option.some.inj heq)

theorem note_initial {c : Collected} {name value message : String}
    (h : c.note name value = .error message) : initial message ≠ some 'l' := by
  unfold Collected.note at h
  split at h
  · split at h
    · cases h
      exact initial_ne (c := 'r') (by decide) (by decide)
    · cases h
  · split at h
    · split at h <;> cases h
    · cases h

theorem keep_initial {c : Collected} {name value message : String}
    (h : c.keep name value = .error message) : initial message ≠ some 'l' := by
  unfold Collected.keep at h
  split at h
  · split at h
    · cases h
    · cases h
      exact initial_ne (c := 'c') (initial_append (initial_append
        (show initial "conflicting duplicate " = some 'c' by decide) _) _) (by decide)
  · cases h

theorem add_initial {c : Collected} {header : String × List UInt8} {message : String}
    (h : Collected.add p c header = .error message) : initial message ≠ some 'l' := by
  unfold Collected.add at h
  split at h
  · cases h
    exact initial_ne (c := 'i') (by decide) (by decide)
  · rcases bind_error h with hfirst | ⟨c', _, hsecond⟩
    · exact note_initial hfirst
    · exact keep_initial hsecond

theorem collect_initial {headers : List (String × List UInt8)} {c : Collected} {message : String}
    (h : headers.foldlM (Collected.add p) c = .error message) : initial message ≠ some 'l' := by
  induction headers generalizing c with
  | nil => cases h
  | cons header headers ih =>
      rw [List.foldlM_cons] at h
      rcases bind_error h with hfirst | ⟨c', _, hrest⟩
      · exact add_initial hfirst
      · exact ih hrest

theorem fieldsOf_initial {head : Head} {message : String} (h : fieldsOf p head = .error message) :
    initial message ≠ some 'l' := by
  rcases bind_error h with hversion | ⟨version, _, hrest⟩
  · unfold versionOf at hversion
    split at hversion
    · cases hversion
    · cases hversion
    · cases hversion
      exact initial_ne (c := 'u') (by decide) (by decide)
  · rcases bind_error hrest with hcollect | ⟨c, _, hlast⟩
    · exact collect_initial hcollect
    · split at hlast
      · cases hlast
        exact initial_ne (c := 'H') (by decide) (by decide)
      · cases hlast

/-- A request line that ends just where it may is not refused as a line. -/
theorem exactLine_accepted (hparse : Httparse p) (hexact : exactLine limits bytes = true) :
    parseData p limits bytes ≠ some (.error limits.line) := by
  simp only [exactLine, Bool.and_eq_true, decide_eq_true_eq] at hexact
  obtain ⟨⟨hnot, hcr⟩, hten⟩ := hexact
  have hfirst : FirstLf bytes (limits.maxLine + 1) := ⟨hten, hnot⟩
  have hline : lineLength bytes (limits.maxLine + 1) = limits.maxLine := by
    rw [lineLength, if_pos ⟨Nat.succ_pos _, hcr⟩]
    rfl
  have hsection : limits.section ≠ limits.line := by
    intro heq
    have hinitial := section_initial limits
    rw [heq, line_initial] at hinitial
    exact absurd hinitial (by decide)
  intro h
  unfold parseData at h
  split at h
  · have hinitial := congrArg initial (Except.error.inj (Option.some.inj h))
    rw [line_initial] at hinitial
    exact initial_ne (c := 'm') (initial_append (initial_append
      (show initial "more than " = some 'm' by decide) _) _) (by decide) hinitial
  · have hinitial := congrArg initial (Except.error.inj (Option.some.inj h))
    rw [line_initial] at hinitial
    exact initial_ne (c := 'm') (initial_append
      (show initial "malformed HTTP request: " = some 'm' by decide) _) (by decide) hinitial
  · obtain ⟨reason, hover, hreason⟩ := Option.map_eq_some_iff.mp h
    cases hreason
    rcases overLimit_some hover with ⟨_, hlong⟩ | ⟨heq, _⟩
    · have hbad := hlong.1 _ hfirst
      omega
    · exact hsection heq.symm
  · rename_i head amount hstatus
    obtain ⟨_, hmem, _⟩ := hparse.complete _ _ _ _ hstatus
    obtain ⟨f, hf, hf'⟩ := exists_firstLf hmem
    obtain rfl := hfirst.unique hf'
    simp only [hfirst.idxOf_take hf, hline, Nat.lt_irrefl, if_false] at h
    split at h
    · exact hsection (Except.error.inj (Option.some.inj h))
    · cases hfields : fieldsOf p head with
      | ok fields =>
          rw [hfields] at h
          cases h
      | error message =>
          rw [hfields] at h
          have heq : message = limits.line := Except.error.inj (Option.some.inj h)
          exact fieldsOf_initial hfields (heq ▸ line_initial limits)

/-- What the crate refuses is not refused for its size. -/
theorem refused_initial (h : (p.parse limits.maxHeaderCount bytes).refused = true) :
    ∃ message, parseData p limits bytes = some (.error message) ∧ initial message = some 'm' := by
  unfold parseData
  cases hstatus : p.parse limits.maxHeaderCount bytes with
  | tooManyHeaders =>
      exact ⟨_, rfl, initial_append (initial_append
        (show initial "more than " = some 'm' by decide) _) _⟩
  | malformed why =>
      exact ⟨_, rfl, initial_append
        (show initial "malformed HTTP request: " = some 'm' by decide) _⟩
  | incomplete =>
      rw [hstatus] at h
      cases h
  | complete head amount =>
      rw [hstatus] at h
      cases h

/-- The shortest part that is over a limit is refused for it. -/
theorem overLimit_firstOver (hlength : firstOver limits bytes ≤ bytes.length) :
    overLimit limits (bytes.take (firstOver limits bytes)) = some limits.line ∧
        10 ∉ bytes.take (limits.maxLine + 1) ∨
      overLimit limits (bytes.take (firstOver limits bytes)) = some limits.section ∧
        10 ∈ bytes.take (limits.maxLine + 1) := by
  by_cases hmem : 10 ∈ bytes.take (limits.maxLine + 1)
  · obtain ⟨f, hf, hfirst⟩ := exists_firstLf hmem
    have hover : firstOver limits bytes = limits.maxLine + limits.maxHeaderSize + 1 := if_pos hmem
    rw [hover] at hlength ⊢
    refine .inr ⟨overLimit_section ⟨f, ⟨?_, ?_⟩, ?_, ?_⟩, hmem⟩
    · rw [List.getElem?_take_of_lt (by omega), hfirst.1]
    · rw [List.take_take, Nat.min_eq_left (by omega)]
      exact hfirst.2
    · exact Nat.le_trans (lineLength_le _ f) (by omega)
    · rw [List.length_take]
      omega
  · have hover : firstOver limits bytes = limits.maxLine + 1 := if_neg hmem
    rw [hover] at hlength ⊢
    refine .inl ⟨overLimit_line ⟨fun f hf => ?_, fun _ => ?_⟩, hmem⟩
    · exact absurd (List.mem_of_mem_take (hf.mem_take (Nat.lt_succ_self f))) hmem
    · rw [List.length_take]
      omega

theorem head_decided {chunk : List UInt8} {rest : List (List UInt8)} (hchunk : chunk ≠ [])
    {parsed : Except String (Fields × Nat)} (h : parseData p limits chunk = some parsed) :
    readFrom (Stream.readRequestHead p limits) (chunk :: rest) = .ok (some parsed) := by
  have hcompact : ({ arriving := chunk :: rest } : Stream).compact = { arriving := chunk :: rest } := rfl
  change (Stream.await _ _ 0 ({ arriving := chunk :: rest } : Stream).compact).1 = _
  rw [hcompact]
  refine await_first hchunk (by simp [Stream.unread]) ?_
  simp [Stream.unread, hchunk, h]

theorem head_undecided {chunk : List UInt8} (hchunk : chunk ≠ [])
    (h : parseData p limits chunk = none) :
    readFrom (Stream.readRequestHead p limits) [chunk] = .ok (some (.error headClosed)) := by
  have hlength : chunk.length ≠ 0 := fun hzero => hchunk (List.length_eq_zero_iff.mp hzero)
  have hcompact : ({ arriving := [chunk] } : Stream).compact = { arriving := [chunk] } := rfl
  have hfill : ({ arriving := [chunk] } : Stream).fill =
      (chunk.length, { buf := chunk, arriving := [] }) := by
    simp [Stream.fill, Stream.compact, Stream.takeChunk, hlength]
  have hend : ({ buf := chunk, arriving := [] } : Stream).fill =
      (0, { buf := chunk, eof := true, arriving := [] }) := by
    simp [Stream.fill, Stream.compact, Stream.takeChunk, Ne.symm hlength, Stream.compactThreshold]
  change (Stream.await _ _ 0 ({ arriving := [chunk] } : Stream).compact).1 = _
  rw [hcompact, Stream.await]
  simp only [Stream.unread, List.drop_zero, if_true]
  rw [dif_neg (by rw [hfill]; exact hlength), hfill, Stream.await]
  simp only [List.drop_zero, if_neg hchunk, h, Option.map_none]
  rw [dif_pos (by rw [hend]), hend]
  simp [Stream.buffered, hchunk]

/-- A head does not depend on where the reads end exactly if it fits. -/
theorem readRequestHead_same_iff (hparse : Httparse p) :
    (∀ cut other, CutOf bytes cut → CutOf bytes other →
      readFrom (Stream.readRequestHead p limits) cut =
        readFrom (Stream.readRequestHead p limits) other) ↔ headFits p limits bytes = true := by
  constructor
  · intro hsame
    by_contra hfits
    simp only [headFits, Bool.or_eq_true, decide_eq_true_eq, Bool.not_eq_true', Bool.and_eq_true,
      not_or, not_and, Bool.not_eq_false] at hfits
    obtain ⟨⟨hlength, hincomplete⟩, hbad⟩ := hfits
    have hle : firstOver limits bytes ≤ bytes.length := by omega
    have hpart : p.parse limits.maxHeaderCount (bytes.take (firstOver limits bytes)) =
        .incomplete := by
      cases hstatus : p.parse limits.maxHeaderCount (bytes.take (firstOver limits bytes)) with
      | incomplete => rfl
      | _ => rw [hstatus] at hincomplete; cases hincomplete
    have hpos : 0 < firstOver limits bytes := by
      unfold firstOver
      split <;> omega
    have hless : firstOver limits bytes < bytes.length := by
      by_contra hge
      have hall : bytes.take (firstOver limits bytes) = bytes := List.take_of_length_le (by omega)
      rw [hall] at hpart
      cases hexact : exactLine limits bytes with
      | false =>
          have hrefused := hbad hexact
          rw [hpart] at hrefused
          cases hrefused
      | true =>
          simp only [exactLine, Bool.and_eq_true, decide_eq_true_eq] at hexact
          obtain ⟨⟨hnot, _⟩, hten⟩ := hexact
          have hover : firstOver limits bytes = limits.maxLine + 1 := if_neg hnot
          obtain ⟨hlt, _⟩ := List.getElem?_eq_some_iff.mp hten
          omega
    have hne : bytes ≠ [] := List.length_pos_iff.mp (by omega)
    have hne' : bytes.take (firstOver limits bytes) ≠ [] := by
      rw [← List.length_pos_iff, List.length_take]
      omega
    have hboth := hsame _ _ (cutOf_two hpos hless) (cutOf_one hne)
    have hwhole : ∀ reason, overLimit limits (bytes.take (firstOver limits bytes)) = some reason →
        parseData p limits bytes = some (.error reason) ∨ reason = headClosed := by
      intro reason hreason
      have hearly : parseData p limits (bytes.take (firstOver limits bytes)) =
          some (.error reason) := by
        rw [parseData, hpart, hreason, Option.map_some]
      rw [head_decided hne' hearly] at hboth
      cases hdata : parseData p limits bytes with
      | none =>
          rw [head_undecided hne hdata] at hboth
          exact .inr (Except.error.inj (Option.some.inj (Except.ok.inj hboth)))
      | some parsed =>
          rw [head_decided hne hdata] at hboth
          exact .inl (congrArg some (Option.some.inj (Except.ok.inj hboth)).symm)
    have hclosed : initial headClosed = some 'c' := by decide
    rcases overLimit_firstOver hle with ⟨hover, hnot⟩ | ⟨hover, hmem⟩
    · rcases hwhole _ hover with hdata | heq
      · cases hexact : exactLine limits bytes with
        | true => exact exactLine_accepted hparse hexact hdata
        | false =>
            obtain ⟨message, hmessage, hinitial⟩ := refused_initial (hbad hexact)
            rw [hdata] at hmessage
            rw [← Except.error.inj (Option.some.inj hmessage), line_initial] at hinitial
            exact absurd hinitial (by decide)
      · rw [← heq, line_initial] at hclosed
        exact absurd hclosed (by decide)
    · rcases hwhole _ hover with hdata | heq
      · cases hexact : exactLine limits bytes with
        | true =>
            simp only [exactLine, Bool.and_eq_true, decide_eq_true_eq] at hexact
            exact hexact.1.1 hmem
        | false =>
            obtain ⟨message, hmessage, hinitial⟩ := refused_initial (hbad hexact)
            rw [hdata] at hmessage
            rw [← Except.error.inj (Option.some.inj hmessage), section_initial] at hinitial
            exact absurd hinitial (by decide)
      · rw [← heq, section_initial] at hclosed
        exact absurd hclosed (by decide)
  · intro hfits cut other hcut hother
    have hread : ∀ cut, CutOf bytes cut → readFrom (Stream.readRequestHead p limits) cut =
        .ok (wholeHead p limits bytes) := by
      intro cut hcut
      exact (readRequestHead_same hparse hfits hcut.holds).1
    rw [hread cut hcut, hread other hother]

/-- Where the reads end does not matter: for a line and for a head exactly if it fits, and for
all that a connection yields, its requests and its first error, if every one it reads does. -/
theorem cuts_same (hparse : Httparse p) (limits : Limits) (turns : Nat) (bytes : List UInt8) :
    (∀ limit, (∀ cut other, CutOf bytes cut → CutOf bytes other →
      readFrom (Stream.readLine limit) cut = readFrom (Stream.readLine limit) other) ↔
        lineFits limit bytes = true) ∧
    ((∀ cut other, CutOf bytes cut → CutOf bytes other →
      readFrom (Stream.readRequestHead p limits) cut =
        readFrom (Stream.readRequestHead p limits) other) ↔ headFits p limits bytes = true) ∧
    (Fits p limits turns bytes → ∀ cut other, CutOf bytes cut → CutOf bytes other →
      yielded p limits turns cut = yielded p limits turns other) := by
  refine ⟨readLine_same_iff, readRequestHead_same_iff hparse, fun hfits cut other hcut hother => ?_⟩
  rw [yielded_all hparse hfits hcut.flatten hcut.whole,
    yielded_all hparse hfits hother.flatten hother.whole]

/-- A request without headers: a line of 14 bytes, and an empty one. -/
def greeting : List UInt8 := [71, 69, 84, 32, 47, 32, 72, 84, 84, 80, 47, 49, 46, 48, 13, 10, 13, 10]

/-- The crate, as far as it sees this request. -/
def greets : Platform where
  parse := fun _ raw =>
    if greeting <+: raw then .complete ⟨"GET", "/", 0, []⟩ 18 else .incomplete
  utf8 := fun bytes => some (String.ofList (bytes.map fun b => Char.ofNat b.toNat))
  lossy := fun bytes => String.ofList (bytes.map fun b => Char.ofNat b.toNat)
  lower := String.toLower

theorem greets_parse : Httparse greets := by
  refine ⟨fun count part rest hdecided => ?_, fun count raw head amount hstatus => ?_⟩
  · by_cases hpart : greeting <+: part
    · change (if greeting <+: part ++ rest then _ else _) = if greeting <+: part then _ else _
      rw [if_pos hpart, if_pos (hpart.trans (List.prefix_append part rest))]
    · exact absurd (if_neg hpart) hdecided
  · by_cases hraw : greeting <+: raw
    · have hsame : greets.parse count raw = .complete ⟨"GET", "/", 0, []⟩ 18 := if_pos hraw
      rw [hsame] at hstatus
      cases hstatus
      obtain ⟨rest, rfl⟩ := hraw
      have htake : (greeting ++ rest).take 18 = greeting := List.take_left' rfl
      refine ⟨?_, ?_, ?_⟩
      · rw [List.length_append]
        exact Nat.le_add_right 18 _
      · rw [htake]
        decide
      · rw [htake]
        exact if_pos (e := Status.incomplete) (List.prefix_refl greeting)
    · have hsame : greets.parse count raw = .incomplete := if_neg hraw
      rw [hsame] at hstatus
      cases hstatus

theorem cuts_same_greeting :
    Fits greets ⟨20, 20, 5, 10⟩ 3 greeting ∧
      yielded greets ⟨20, 20, 5, 10⟩ 3 [greeting] =
        yielded greets ⟨20, 20, 5, 10⟩ 3 [greeting.take 15, greeting.drop 15] := by
  have hfits : Fits greets ⟨20, 20, 5, 10⟩ 3 greeting := rfl
  exact ⟨hfits, (cuts_same greets_parse ⟨20, 20, 5, 10⟩ 3 greeting).2.2 hfits _ _
    (cutOf_one (by decide)) (cutOf_two (by decide) (by decide))⟩

section

variable {turns : Nat} {cut : List (List UInt8)}

theorem nextRequest_refused {message : String}
    (h : readFrom (Stream.readRequestHead p limits) cut = .ok (some (.error message))) :
    yielded p limits (turns + 1) cut = ([], some (raised message)) := by
  have hnext : (runFrom (nextRequest (connection p limits) p limits (turns + 1))
      { arriving := cut }).1 = .error (raised message) := by
    rw [nextRequest, runFrom_bind]
    have hhead : (runFrom (connection p limits).readRequestHead { arriving := cut }).1 =
        .error (raised message) := by
      change (runFrom (Stream.takeRequestHead p limits) { arriving := cut }).1 = _
      rw [Stream.takeRequestHead, runFrom_bind,
        show (runFrom (Stream.readRequestHead p limits) { arriving := cut }).1 = _ from h]
      rfl
    rw [hhead]
  rw [yielded, requests]
  generalize runFrom (nextRequest (connection p limits) p limits (turns + 1))
    { arriving := cut } = result at *
  obtain ⟨out, s⟩ := result
  obtain rfl : out = .error (raised message) := hnext
  rfl

theorem nextRequest_bodiless {fields : Fields} {consumed : Nat} (hentries : fields.entries = [])
    (h : readFrom (Stream.readRequestHead p limits) cut = .ok (some (.ok (fields, consumed)))) :
    (yielded p limits (turns + 1) cut).1 ≠ [] := by
  have hreader : readerFor p fields = .ok { mode := .empty, finished := true } := by
    simp [readerFor, Fields.contains, hentries, pure, Except.pure]
  have hnext : (runFrom (nextRequest (connection p limits) p limits (turns + 1))
      { arriving := cut }).1 = .ok (some ⟨fields, [], []⟩) := by
    rw [nextRequest, runFrom_bind]
    have hhead : (runFrom (connection p limits).readRequestHead { arriving := cut }).1 =
        .ok (some fields) := by
      change (runFrom (Stream.takeRequestHead p limits) { arriving := cut }).1 = _
      rw [Stream.takeRequestHead, runFrom_bind,
        show (runFrom (Stream.readRequestHead p limits) { arriving := cut }).1 = _ from h]
      rfl
    rw [hhead]
    simp only [hreader]
    rfl
  rw [yielded, requests]
  generalize runFrom (nextRequest (connection p limits) p limits (turns + 1))
    { arriving := cut } = result at *
  obtain ⟨out, s⟩ := result
  obtain rfl : out = .ok (some ⟨fields, [], []⟩) := hnext
  simp

end

/-- With a limit of just the length of the request line, a read that ends between its CR and
its LF makes the connection refuse what it accepts otherwise. -/
theorem cut_refused :
    CutOf greeting [greeting] ∧ CutOf greeting [greeting.take 15, greeting.drop 15] ∧
      (yielded greets ⟨14, 20, 5, 10⟩ 3 [greeting]).1 ≠ [] ∧
      (yielded greets ⟨14, 20, 5, 10⟩ 3 [greeting.take 15, greeting.drop 15]).1 = [] := by
  refine ⟨cutOf_one (by decide), cutOf_two (by decide) (by decide), ?_, ?_⟩
  · exact nextRequest_bodiless rfl (head_decided (show greeting ≠ [] by decide) rfl)
  · rw [nextRequest_refused (head_decided (show greeting.take 15 ≠ [] by decide) rfl)]

end Zuri.Http.H1
