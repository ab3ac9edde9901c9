import Zuri.Http.H1.BufferedWalk

/-!
A body that is said to be buffered is read without the transport, and one that is buffered is said
to be, whatever earlier calls have walked.
-/

namespace Zuri.Http.H1

open Transition
open Zuri.Http.H1.Stream (chomp)

variable {q : Platform} {unread : List UInt8} {again : Bool} {top : Nat}

theorem findByte_none {k : Nat} (h : 10 ∉ unread.drop k) : findByte unread 10 k = none := by
  rw [findByte, idxOf?_none h]
  rfl

theorem findByte_line {k : Nat} {line rest : List UInt8} (h : unread.drop k = line ++ 10 :: rest)
    (hline : 10 ∉ line) : findByte unread 10 k = some (k + line.length) := by
  rw [findByte, h, idxOf?_line hline]
  rfl

theorem textBetween_line {k : Nat} {line rest : List UInt8}
    (h : unread.drop k = line ++ 10 :: rest) :
    rtrim '\r' (textBetween q.decoding unread k (k + line.length)) = walkText q line := by
  rw [textBetween, h, Nat.add_sub_cancel_left, List.take_left, walkText]

theorem parseChunkSize_walk {line : List UInt8} {size : Nat} :
    parseChunkSize (walkText q line) = .ok size ↔
      parseChunkSize (lineText q.decoding line) = .ok size := by
  rw [walkText_eq, parseChunkSize_rtrim]

section
variable {limit turns k n : Nat} {past : Bool} {line rest : List UInt8}

/-! A step of the walk at a line. -/

theorem chunksBuffered_trailer (h : unread.drop k = line ++ 10 :: rest) (hline : 10 ∉ line) :
    chunksBuffered q.decoding limit unread (turns + 1) ⟨k, n, true, past⟩ =
      if (walkText q line).isEmpty then (true, ⟨k + line.length + 1, n, true, past⟩)
      else chunksBuffered q.decoding limit unread turns ⟨k + line.length + 1, n, true, past⟩ := by
  rw [chunksBuffered, findByte_line h hline]
  simp only [textBetween_line h, if_true]

theorem chunksBuffered_bad (h : unread.drop k = line ++ 10 :: rest) (hline : 10 ∉ line)
    {e : Failure} (hsize : parseChunkSize (walkText q line) = .error e) :
    chunksBuffered q.decoding limit unread (turns + 1) ⟨k, n, false, past⟩ =
      (true, ⟨k, n, false, past⟩) := by
  rw [chunksBuffered, findByte_line h hline]
  simp only [textBetween_line h, hsize, Bool.false_eq_true, if_false]

theorem chunksBuffered_size (h : unread.drop k = line ++ 10 :: rest) (hline : 10 ∉ line)
    {size : Nat} (hsize : parseChunkSize (walkText q line) = .ok size) :
    chunksBuffered q.decoding limit unread (turns + 1) ⟨k, n, false, past⟩ =
      if size = 0 then
        chunksBuffered q.decoding limit unread turns ⟨k + line.length + 1, n, true, past⟩
      else if limit < n + size then (true, ⟨k, n, false, true⟩)
      else if unread.length < k + line.length + 1 + size + 2 then (false, ⟨k, n, false, past⟩)
      else chunksBuffered q.decoding limit unread turns
        ⟨k + line.length + 1 + size + 2, n + size, false, past⟩ := by
  rw [chunksBuffered, findByte_line h hline]
  simp only [textBetween_line h, hsize, Bool.false_eq_true, if_false]

end

theorem split_two {bytes : List UInt8} {n : Nat} (h : n + 2 ≤ bytes.length) :
    ∃ data a b rest, bytes = data ++ a :: b :: rest ∧ data.length = n := by
  have hsplit := List.take_append_drop n bytes
  have hlen : (bytes.drop n).length + n = bytes.length := by
    rw [List.length_drop]
    omega
  match htail : bytes.drop n with
  | [] | [_] =>
      rw [htail] at hlen
      simp only [List.length_nil, List.length_singleton] at hlen
      omega
  | a :: b :: rest =>
      rw [htail] at hsplit
      exact ⟨bytes.take n, a, b, rest, hsplit.symm, List.length_take_of_le (by omega)⟩

theorem length_drop_line {k : Nat} {line rest : List UInt8}
    (h : unread.drop k = line ++ 10 :: rest) : unread.length = k + line.length + 1 + rest.length := by
  have hlen := congrArg List.length h
  have hk := drop_within h (by simp)
  rw [List.length_drop, List.length_append, List.length_cons] at hlen
  omega

/-- Where the walk stands after it, and after it has asked for more. -/
theorem chunksBuffered_reach (limit turns : Nat) (scan : Scan) (hlimit : limit ≤ top)
    (h : Reach q again top unread scan.scanned scan.scannedSize scan.inTrailers) :
    let after := chunksBuffered q.decoding limit unread turns scan
    Reach q true top unread after.2.scanned after.2.scannedSize after.2.inTrailers ∧
      (after.1 = false →
        Reach q again top unread after.2.scanned after.2.scannedSize after.2.inTrailers) := by
  intro after
  simp only [after]
  induction turns generalizing scan with
  | zero => exact ⟨h.weaken, fun _ => h⟩
  | succ turns ih =>
      by_cases hlf : 10 ∈ unread.drop scan.scanned
      · obtain ⟨k, n, t, past⟩ := scan
        obtain ⟨line, rest, hdrop, hline⟩ := List.eq_append_cons_of_mem hlf
        simp only at hdrop h
        cases t with
        | true =>
            rw [chunksBuffered_trailer hdrop hline]
            split
            · next hempty =>
                exact ⟨.ended rfl h.weaken hdrop hline hempty, fun hfalse => nomatch hfalse⟩
            · next hempty =>
                exact ih ⟨_, _, _, _⟩ (.field h hdrop hline (Bool.eq_false_iff.mpr hempty))
        | false =>
            cases hsize : parseChunkSize (walkText q line) with
            | error e =>
                rw [chunksBuffered_bad hdrop hline hsize]
                exact ⟨h.weaken, fun _ => h⟩
            | ok size =>
                have hread := parseChunkSize_walk.mp hsize
                rw [chunksBuffered_size hdrop hline hsize]
                split
                · next hzero =>
                    subst hzero
                    exact ih ⟨_, _, _, _⟩ (.last h hdrop hline hread)
                · next hzero =>
                    split
                    · exact ⟨h.weaken, fun _ => h⟩
                    · split
                      · exact ⟨h.weaken, fun _ => h⟩
                      · next hmore =>
                          have hlen := length_drop_line hdrop
                          obtain ⟨data, a, b, tail, rfl, rfl⟩ :=
                            split_two (show size + 2 ≤ rest.length by omega)
                          exact ih ⟨_, _, _, _⟩ (.chunk h hdrop hline hread
                            (List.ne_nil_of_length_pos (by omega)) (by omega))
      · rw [chunksBuffered, findByte_none hlf]
        exact ⟨h.weaken, fun _ => h⟩

/-- When the walk says that there is enough, there is. -/
theorem chunksBuffered_safe (limit turns : Nat) (scan : Scan) (hlimit : limit ≤ top)
    (h : Reach q true top unread scan.scanned scan.scannedSize scan.inTrailers)
    (hbare : ¬BareLf q.decoding top unread)
    (htrue : (chunksBuffered q.decoding limit unread turns scan).1 = true) :
    (chunksBuffered q.decoding limit unread turns scan).2.overLimit = true ∨
      Safe q.decoding unread := by
  induction turns generalizing scan with
  | zero => exact nomatch htrue
  | succ turns ih =>
      have hsafe := h.safe hbare
      by_cases hlf : 10 ∈ unread.drop scan.scanned
      · have hlost : WalkSafe q scan.inTrailers (unread.drop scan.scanned) →
            Safe q.decoding unread := by
          rcases hsafe with ⟨-, hsafe⟩ | hlost
          · exact hsafe
          · exact fun _ => hlost (.inl hlf)
        obtain ⟨k, n, t, past⟩ := scan
        obtain ⟨line, rest, hdrop, hline⟩ := List.eq_append_cons_of_mem hlf
        simp only at hdrop hlost
        rw [hdrop] at hlost
        cases t with
        | true =>
            rw [chunksBuffered_trailer hdrop hline] at htrue ⊢
            split
            · next hempty => exact .inr (hlost (emptyLine_safe rest hline hempty))
            · next hempty =>
                rw [if_neg hempty] at htrue
                exact ih ⟨_, _, _, _⟩ (.field h hdrop hline (Bool.eq_false_iff.mpr hempty)) htrue
        | false =>
            cases hsize : parseChunkSize (walkText q line) with
            | error e =>
                refine .inr (hlost (Safe.bad rest hline fun size hread => ?_))
                rw [parseChunkSize_walk.mpr hread] at hsize
                exact nomatch hsize
            | ok size =>
                have hread := parseChunkSize_walk.mp hsize
                rw [chunksBuffered_size hdrop hline hsize] at htrue ⊢
                split
                · next hzero =>
                    rw [if_pos hzero] at htrue
                    subst hzero
                    exact ih ⟨_, _, _, _⟩ (.last h hdrop hline hread) htrue
                · next hzero =>
                    rw [if_neg hzero] at htrue
                    split
                    · exact .inl rfl
                    · next hwithin =>
                        rw [if_neg hwithin] at htrue
                        split
                        · next hshort =>
                            rw [if_pos hshort] at htrue
                            exact nomatch htrue
                        · next hmore =>
                            rw [if_neg hmore] at htrue
                            have hlen := length_drop_line hdrop
                            obtain ⟨data, a, b, tail, rfl, rfl⟩ :=
                              split_two (show size + 2 ≤ rest.length by omega)
                            exact ih ⟨_, _, _, _⟩ (.chunk h hdrop hline hread
                              (List.ne_nil_of_length_pos (by omega)) (by omega)) htrue
      · rw [chunksBuffered, findByte_none hlf] at htrue
        have hlong : 8192 < (unread.drop scan.scanned).length := by
          rw [List.length_drop]
          exact of_decide_eq_true htrue
        refine .inr ?_
        rcases hsafe with ⟨-, hsafe⟩ | hlost
        · refine hsafe ?_
          cases scan.inTrailers with
          | true => exact TrailersSafe.long hlf hlong
          | false => exact Safe.long hlf (by omega)
        · exact hlost (.inr (by omega))

theorem line_unique {l l' r r' : List UInt8} (h : l ++ 10 :: r = l' ++ 10 :: r') (hl : 10 ∉ l)
    (hl' : 10 ∉ l') : l = l' ∧ r = r' := by
  have hlen := congrArg (List.idxOf? 10) h
  rw [idxOf?_line hl, idxOf?_line hl'] at hlen
  obtain ⟨hfront, hrest⟩ := List.append_inj h (Option.some.inj hlen)
  exact ⟨hfront, (List.cons.inj hrest).2⟩

/-- What is left of a body that is there, where the walk stands. -/
def Remains (q : Platform) (budget : Nat) : Bool → List UInt8 → Prop
  | false, bytes => Chunked q.decoding bytes ∧ ¬BareLf q.decoding budget bytes
  | true, bytes => Trailers q.decoding bytes

theorem chomp_nil {line : List UInt8} (h : chomp line = []) : line = [] ∨ line = [13] := by
  rcases chomp_cases line with ⟨heq, -⟩ | heq
  · exact .inl (heq.symm.trans h)
  · rw [h] at heq
    exact .inr heq

theorem walkText_chomped {line : List UInt8} (h : chomp line = []) :
    (walkText q line).isEmpty = true := by
  rw [walkText_eq, lineText, h]
  rfl

theorem Chunked.ne_nil {q : H1.Platform} {bytes : List UInt8} (h : Chunked q bytes) :
    bytes ≠ [] := by
  cases h with
  | last _ _ _ | chunk _ _ _ _ _ _ => simp

theorem Reach.remains {bytes : List UInt8} {k n : Nat} {t : Bool}
    (h : Reach q false top bytes k n t) (hchunked : Chunked q.decoding bytes)
    (hbare : ¬BareLf q.decoding top bytes) : Remains q (top - n) t (bytes.drop k) := by
  induction h with
  | start => exact ⟨hchunked, hbare⟩
  | @last k n line rest _ hdrop hline hsize ih =>
      rw [drop_line hdrop]
      obtain ⟨hbody, -⟩ := ih
      rw [hdrop] at hbody
      generalize hb : line ++ 10 :: rest = b at hbody
      cases hbody with
      | last hline' hsize' htrailers =>
          obtain ⟨-, rfl⟩ := line_unique hb hline hline'
          exact htrailers
      | chunk hline' hsize' hdata' _ _ _ =>
          obtain ⟨rfl, -⟩ := line_unique hb hline hline'
          rw [hsize] at hsize'
          exact absurd (List.length_eq_zero_iff.mp (Except.ok.inj hsize').symm) hdata'
  | @chunk k n line data rest a b _ hdrop hline hsize hdata htop ih =>
      rw [drop_chunk hdrop]
      obtain ⟨hbody, hnot⟩ := ih
      have hbudget : data.length ≤ top - n := by omega
      rw [← Nat.sub_sub]
      rw [hdrop] at hbody hnot
      generalize hb : line ++ 10 :: (data ++ a :: b :: rest) = whole at hbody
      cases hbody with
      | last hline' hsize' _ =>
          obtain ⟨rfl, -⟩ := line_unique hb hline hline'
          rw [hsize] at hsize'
          exact absurd (List.length_eq_zero_iff.mp (Except.ok.inj hsize')) hdata
      | @chunk line' data' sep rest' hline' hsize' hdata' hsep hchomp hrest =>
          obtain ⟨rfl, hdatas⟩ := line_unique hb hline hline'
          rw [hsize] at hsize'
          obtain ⟨rfl, hpair⟩ := List.append_inj hdatas (Except.ok.inj hsize')
          rcases chomp_nil hchomp with rfl | rfl
          · rw [List.nil_append] at hpair
            obtain ⟨rfl, -⟩ := List.cons.inj hpair
            exact absurd (BareLf.here _ _ hline hsize hdata hbudget) hnot
          · rw [List.singleton_append] at hpair
            obtain ⟨rfl, htail⟩ := List.cons.inj hpair
            obtain ⟨rfl, rfl⟩ := List.cons.inj htail
            exact ⟨hrest, fun hlater => hnot (.later hline hsize hdata hbudget hlater)⟩
  | @field k n line rest _ hdrop hline htext ih =>
      rw [drop_line hdrop]
      have htrailers : Trailers q.decoding (line ++ 10 :: rest) := hdrop ▸ ih
      generalize hb : line ++ 10 :: rest = b at htrailers
      cases htrailers with
      | done rest' hline' hchomp =>
          obtain ⟨rfl, -⟩ := line_unique hb hline hline'
          exact absurd (walkText_chomped hchomp) (Bool.eq_false_iff.mp htext)
      | field hline' _ hrest =>
          obtain ⟨-, rfl⟩ := line_unique hb hline hline'
          exact hrest
  | ended hagain _ _ _ _ _ => exact nomatch hagain

theorem Trailers.line {bytes : List UInt8} (h : Trailers q bytes) :
    ∃ line rest, bytes = line ++ 10 :: rest ∧ 10 ∉ line := by
  cases h with
  | done rest hline _ => exact ⟨_, rest, rfl, hline⟩
  | field hline _ _ => exact ⟨_, _, rfl, hline⟩

/-- The walk comes to the end of a body that is there. -/
theorem chunksBuffered_whole (limit turns : Nat) (scan : Scan) (hlimit : limit ≤ top)
    (h : Reach q false top unread scan.scanned scan.scannedSize scan.inTrailers)
    (hchunked : Chunked q.decoding unread) (hbare : ¬BareLf q.decoding top unread)
    (hturns : unread.length < turns + scan.scanned) :
    (chunksBuffered q.decoding limit unread turns scan).1 = true := by
  induction turns generalizing scan with
  | zero =>
      -- the walk has not come past the end
      have hremains := h.remains hchunked hbare
      rw [List.drop_eq_nil_of_le (by omega)] at hremains
      cases htrailers : scan.inTrailers with
      | true =>
          rw [htrailers] at hremains
          obtain ⟨line, rest, hbytes, -⟩ := Trailers.line hremains
          exact absurd hbytes (by simp)
      | false =>
          rw [htrailers] at hremains
          generalize hb : ([] : List UInt8) = bytes at hremains
          exact absurd hb.symm hremains.1.ne_nil
  | succ turns ih =>
      have hremains := h.remains hchunked hbare
      obtain ⟨k, n, t, past⟩ := scan
      simp only at hremains hturns h
      generalize hdrop : unread.drop k = bytes at hremains
      cases t with
      | true =>
          obtain ⟨line, rest, rfl, hline⟩ := Trailers.line hremains
          rw [chunksBuffered_trailer hdrop hline]
          split
          · rfl
          · next hempty =>
              refine ih ⟨_, _, _, _⟩ (.field h hdrop hline (Bool.eq_false_iff.mpr hempty)) ?_
              simp only
              omega
      | false =>
          cases hremains.1 with
          | last hline hsize htrailers =>
              rw [chunksBuffered_size hdrop hline (parseChunkSize_walk.mpr hsize), if_pos rfl]
              refine ih ⟨_, _, _, _⟩ (.last h hdrop hline hsize) ?_
              simp only
              omega
          | @chunk line data sep rest hline hsize hdata hsep hchomp hrest =>
              have hpos := List.length_pos_iff.mpr hdata
              rw [chunksBuffered_size hdrop hline (parseChunkSize_walk.mpr hsize),
                if_neg (Nat.ne_of_gt hpos)]
              split
              · rfl
              · next hwithin =>
                  have hbudget : data.length ≤ top - n := by omega
                  rcases chomp_nil hchomp with rfl | rfl
                  · obtain ⟨b, rest, rfl⟩ := List.exists_cons_of_ne_nil hrest.ne_nil
                    exact absurd (BareLf.here _ _ hline hsize hdata hbudget) hremains.2
                  · have hlen := length_drop_line hdrop
                    simp only [List.length_append, List.length_cons, List.length_nil] at hlen
                    rw [if_neg (by omega)]
                    refine ih ⟨_, _, _, _⟩ (.chunk h hdrop hline hsize hdata (by omega)) ?_
                    simp only
                    omega

/-- What earlier calls with limits up to `top`, while bytes arrived, can have left of the walk;
unless it is asked `again`, none of them said that the body was buffered. -/
inductive Walked (q : Platform) (r : BodyReader) (top : Nat) (again : Bool) :
    List UInt8 → Scan → Prop
  | start (unread : List UInt8) : Walked q r top again unread {}
  | arrives {unread : List UInt8} {scan : Scan} (more : List UInt8) :
      Walked q r top again unread scan → Walked q r top again (unread ++ more) scan
  | asked {scan : Scan} (s : Stream) (limit : Nat) : limit ≤ top →
      Walked q r top again s.unread scan →
      ((isBuffered q.decoding r limit s scan).1 = false ∨ again = true) →
      Walked q r top again s.unread (isBuffered q.decoding r limit s scan).2

theorem Walked.reach {r : BodyReader} {scan : Scan} (h : Walked q r top again unread scan) :
    Reach q again top unread scan.scanned scan.scannedSize scan.inTrailers := by
  induction h with
  | start => exact .start
  | arrives more _ ih => exact ih.more more
  | @asked scan s limit hlimit _ hsaid ih =>
      unfold isBuffered at hsaid ⊢
      cases hmode : r.mode with
      | length | empty => exact ih
      | chunked =>
          simp only [hmode] at hsaid ⊢
          obtain ⟨hagain, hwait⟩ := chunksBuffered_reach limit (s.unread.length + 1) scan hlimit ih
          rcases hsaid with hfalse | rfl
          · exact hwait hfalse
          · exact hagain

/-- All of a body is there, whatever follows it. -/
def Whole (q : Platform) (r : BodyReader) (unread : List UInt8) : Prop :=
  match r.mode with
  | .length => r.remaining ≤ unread.length
  | .chunked => Chunked q.decoding unread
  | .empty => True

theorem runs_readAllScanned {s : Stream} {scan : Scan} {mode : Mode} {length : Nat}
    (limits : Limits) (limit : Nat) {turns : Nat}
    (hsafe : scan.overLimit = true ∨
      match mode with
      | .length => length ≤ s.unread.length
      | .chunked => Safe q.decoding s.unread
      | .empty => True) (hturns : s.unread.length < turns) :
    Runs (readAllScanned q.decoding (connection q.decoding limits) limit turns
      (BodyReader.new mode length) scan) s fun _ _ => True := by
  unfold readAllScanned
  split
  · exact Runs.throw fun h => nomatch h
  · split
    · exact Runs.throw fun h => nomatch h
    · next hover =>
        have hsafe := hsafe.resolve_left hover
        cases mode with
        | length =>
            exact runs_readOn (fun r t hr _ => runs_readLength r hr)
              _ ⟨rfl, hsafe⟩ [] hturns hturns
        | chunked =>
            exact runs_readOn (fun r t hr ht => runs_read r hr (by decide) ht)
              _ ⟨rfl, rfl, .next hsafe⟩ [] hturns hturns
        | empty =>
            cases turns with
            | zero => exact absurd hturns (Nat.not_lt_zero _)
            | succ turns => exact Runs.pure trivial

/-- A crate that is not asked. -/
def headless : Platform where
  parse _ _ := .malformed ""
  utf8 _ := none
  lossy := fromUtf8Lossy
  lower := String.toLower

/-- A connection that will bring nothing more. -/
def arrived (bytes : List UInt8) : Stream := { buf := bytes, arriving := [] }

/-- A chunk of one byte, and the last one. -/
def oneChunk : List UInt8 := [49, 13, 10, 97, 13, 10, 48, 13, 10, 13, 10]

theorem not_bareLf_last {budget : Nat} {line rest : List UInt8} (hline : 10 ∉ line)
    (hsize : parseChunkSize (lineText q line) = .ok 0) : ¬BareLf q budget (line ++ 10 :: rest) := by
  intro hbare
  generalize hb : line ++ 10 :: rest = bytes at hbare
  cases hbare with
  | here _ _ hline' hsize' hdata _ | later hline' hsize' hdata _ _ =>
      obtain ⟨rfl, -⟩ := line_unique hb hline hline'
      rw [hsize] at hsize'
      exact hdata (List.length_eq_zero_iff.mp (Except.ok.inj hsize').symm)

theorem not_bareLf_chunk {budget : Nat} {line data rest : List UInt8} (hline : 10 ∉ line)
    (hsize : parseChunkSize (lineText q line) = .ok data.length)
    (hrest : ¬BareLf q (budget - data.length) rest) :
    ¬BareLf q budget (line ++ 10 :: (data ++ 13 :: 10 :: rest)) := by
  intro hbare
  generalize hb : line ++ 10 :: (data ++ 13 :: 10 :: rest) = bytes at hbare
  cases hbare with
  | here _ _ hline' hsize' _ _ =>
      obtain ⟨rfl, hdatas⟩ := line_unique hb hline hline'
      rw [hsize] at hsize'
      obtain ⟨-, hpair⟩ := List.append_inj hdatas (Except.ok.inj hsize')
      exact absurd (List.cons.inj hpair).1 (by decide)
  | later hline' hsize' _ _ hlater =>
      obtain ⟨rfl, hdatas⟩ := line_unique hb hline hline'
      rw [hsize] at hsize'
      obtain ⟨rfl, hpair⟩ := List.append_inj hdatas (Except.ok.inj hsize')
      obtain rfl := (List.cons.inj (List.cons.inj hpair).2).2
      exact hrest hlater

end Zuri.Http.H1
