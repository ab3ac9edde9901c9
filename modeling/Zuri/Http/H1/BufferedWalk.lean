import Zuri.Http.H1.BufferedRead

/-!
The walk over the chunks and the reader agree, unless the data of a chunk is followed by a bare
line feed: the reader takes it for the end of the chunk, and the walk passes over two bytes.
-/

namespace Zuri.Http.H1

open Zuri.Http.H1.Stream (chomp)

theorem decodeFrom_cr (pending : Option Pending) (bytes : List UInt8) :
    decodeFrom pending (bytes ++ [13]) = decodeFrom pending bytes ++ ['\r'] := by
  induction bytes generalizing pending with
  | nil =>
      cases pending with
      | none => rfl
      | some c =>
          have hlow : ¬(c.low ≤ 13 ∧ 13 ≤ c.high) := fun h =>
            absurd (Nat.le_trans c.continues h.1) (by decide)
          change (nextByte (some c) 13).1 ++ decodeFrom (nextByte (some c) 13).2 [] = _
          rw [nextByte, if_neg hlow]
          rfl
  | cons b bytes ih =>
      rw [List.cons_append]
      cases pending with
      | none | some _ =>
          rw [decodeFrom, decodeFrom, ih, List.append_assoc]

theorem rtrim_cr (text : List Char) :
    rtrim '\r' (String.ofList (text ++ ['\r'])) = rtrim '\r' (String.ofList text) := by
  unfold rtrim
  simp

theorem chomp_cases (line : List UInt8) :
    chomp line = line ∧ line.getLast? ≠ some 13 ∨ line = chomp line ++ [13] := by
  unfold chomp
  split
  · next h =>
      refine .inr ?_
      obtain ⟨l, rfl⟩ := List.getLast?_eq_some_iff.mp h
      rw [List.dropLast_concat]
  · next h => exact .inl ⟨rfl, h⟩

variable {q : Platform}

/-- The walk's text of a line. -/
def walkText (q : Platform) (line : List UInt8) : String := rtrim '\r' (q.decoding.lossy line)

theorem walkText_eq (line : List UInt8) :
    walkText q line = rtrim '\r' (lineText q.decoding line) := by
  unfold walkText lineText
  rcases chomp_cases line with ⟨h, -⟩ | h
  · rw [h]
  · generalize chomp line = l at h
    subst h
    change rtrim '\r' (String.ofList (decodeFrom none (l ++ [13]))) = _
    rw [decodeFrom_cr, rtrim_cr]
    rfl

theorem rtrim_split (text : String) : ∃ n, text.toList =
    (rtrim '\r' text).toList ++ List.replicate n '\r' := by
  have hsplit := List.takeWhile_append_dropWhile (p := fun d => decide (d = '\r'))
    (l := text.toList.reverse)
  have hall : ∀ d ∈ text.toList.reverse.takeWhile (fun d => decide (d = '\r')), d = '\r' :=
    fun d hd => of_decide_eq_true (List.all_eq_true.mp List.all_takeWhile d hd)
  have hreplicate := List.eq_replicate_of_mem hall
  refine ⟨(text.toList.reverse.takeWhile fun d => decide (d = '\r')).length, ?_⟩
  rw [rtrim, String.toList_ofList]
  calc text.toList = text.toList.reverse.reverse := (List.reverse_reverse _).symm
    _ = (text.toList.reverse.dropWhile fun d => decide (d = '\r')).reverse ++
          (text.toList.reverse.takeWhile fun d => decide (d = '\r')).reverse := by
        rw [← List.reverse_append, hsplit]
    _ = _ := by rw [hreplicate, List.reverse_replicate, List.length_replicate]

theorem trimChars_cr (strip : Char → Bool) (hcr : strip '\r' = true) (text : List Char) (n : Nat) :
    trimChars strip (text ++ List.replicate n '\r') = trimChars strip text := by
  induction n with
  | zero => rw [List.replicate_zero, List.append_nil]
  | succ n ih =>
      rw [← ih, List.replicate_succ', ← List.append_assoc]
      generalize text ++ List.replicate n '\r' = l
      unfold trimChars
      rw [List.dropWhile_append]
      split
      · next h =>
          rw [List.isEmpty_iff.mp h, List.dropWhile_cons_of_pos hcr]
          rfl
      · rw [List.reverse_append, List.reverse_singleton, List.singleton_append,
          List.dropWhile_cons_of_pos hcr]

theorem takeWhile_replicate {p : Char → Bool} {c : Char} (h : p c = true) (n : Nat) :
    (List.replicate n c).takeWhile p = List.replicate n c := by
  induction n with
  | zero => rfl
  | succ n ih => rw [List.replicate_succ, List.takeWhile_cons_of_pos h, ih]

theorem takeWhile_cr (text : List Char) (n : Nat) :
    trimChars isTrimWhitespace ((text ++ List.replicate n '\r').takeWhile fun c => c != ';') =
      trimChars isTrimWhitespace (text.takeWhile fun c => c != ';') := by
  rw [List.takeWhile_append]
  split
  · next h =>
      have hall : (List.replicate n '\r').takeWhile (fun c => c != ';') = List.replicate n '\r' :=
        takeWhile_replicate (by decide) n
      have hwhole : text.takeWhile (fun c => c != ';') = text :=
        (List.takeWhile_prefix _).eq_of_length h
      rw [hall, hwhole]
      exact trimChars_cr _ (by decide) _ _
  · rfl

theorem chunkDigits_line (line line' : String) (size n : Nat) (digits : List Char)
    (h : chunkDigits line size digits = .ok n) : chunkDigits line' size digits = .ok n := by
  induction digits generalizing size with
  | nil => exact h
  | cons c digits ih =>
      rw [chunkDigits] at h ⊢
      cases hc : hexDigit c with
      | none =>
          rw [hc] at h
          cases h
      | some d =>
          by_cases hmax : maxChunkSize < size * 16 + d
          · simp only [hc, if_pos hmax] at h
            cases h
          · simp only [hc, if_neg hmax] at h ⊢
            exact ih _ h

theorem parseChunkSize_rtrim (text : String) (n : Nat) :
    parseChunkSize (rtrim '\r' text) = .ok n ↔ parseChunkSize text = .ok n := by
  obtain ⟨k, hsplit⟩ := rtrim_split text
  have hsame := takeWhile_cr (rtrim '\r' text).toList k
  rw [← hsplit] at hsame
  unfold parseChunkSize
  simp only [hsame]
  split
  · exact Iff.rfl
  · exact ⟨chunkDigits_line _ _ _ _ _, chunkDigits_line _ _ _ _ _⟩

theorem trailerField_rtrim {text : String} (h : (rtrim '\r' text).isEmpty = true)
    (field : String × String) : trailerField text ≠ .ok field := by
  obtain ⟨k, hsplit⟩ := rtrim_split text
  have hempty : (rtrim '\r' text).toList = [] := by
    rw [String.isEmpty_iff.mp h]
    rfl
  rw [hempty, List.nil_append] at hsplit
  have hall : (List.replicate k '\r').takeWhile (fun c => c != ':') = List.replicate k '\r' :=
    takeWhile_replicate (by decide) k
  unfold trailerField
  simp only [hsplit, hall]
  simp

/-- A trailer section, and whatever follows it. -/
inductive Trailers (q : Platform) : List UInt8 → Prop
  | done {line : List UInt8} (rest : List UInt8) : 10 ∉ line → chomp line = [] →
      Trailers q (line ++ 10 :: rest)
  | field {line rest : List UInt8} {field : String × String} : 10 ∉ line →
      trailerField (lineText q line) = .ok field → Trailers q rest → Trailers q (line ++ 10 :: rest)

/-- A chunked body, and whatever follows it. -/
inductive Chunked (q : Platform) : List UInt8 → Prop
  | last {line rest : List UInt8} : 10 ∉ line → parseChunkSize (lineText q line) = .ok 0 →
      Trailers q rest → Chunked q (line ++ 10 :: rest)
  | chunk {line data sep rest : List UInt8} : 10 ∉ line →
      parseChunkSize (lineText q line) = .ok data.length → data ≠ [] → 10 ∉ sep →
      chomp sep = [] → Chunked q rest → Chunked q (line ++ 10 :: (data ++ (sep ++ 10 :: rest)))

/-- A chunk, after others that end in CR LF, whose data a bare line feed and a byte more follow,
and the data up to there are no more than the budget. -/
inductive BareLf (q : Platform) : Nat → List UInt8 → Prop
  | here {budget : Nat} {line data : List UInt8} (b : UInt8) (rest : List UInt8) : 10 ∉ line →
      parseChunkSize (lineText q line) = .ok data.length → data ≠ [] → data.length ≤ budget →
      BareLf q budget (line ++ 10 :: (data ++ 10 :: b :: rest))
  | later {budget : Nat} {line data rest : List UInt8} : 10 ∉ line →
      parseChunkSize (lineText q line) = .ok data.length → data ≠ [] → data.length ≤ budget →
      BareLf q (budget - data.length) rest →
      BareLf q budget (line ++ 10 :: (data ++ 13 :: 10 :: rest))

/-- How far the walk can have come in the bytes, how much data it has passed, no more than `top`,
and whether it is in the trailer section; it goes on after the section's end only when it is asked
again. -/
inductive Reach (q : Platform) (again : Bool) (top : Nat) (bytes : List UInt8) :
    Nat → Nat → Bool → Prop
  | start : Reach q again top bytes 0 0 false
  | last {k n : Nat} {line rest : List UInt8} : Reach q again top bytes k n false →
      bytes.drop k = line ++ 10 :: rest → 10 ∉ line →
      parseChunkSize (lineText q.decoding line) = .ok 0 →
      Reach q again top bytes (k + line.length + 1) n true
  | chunk {k n : Nat} {line data rest : List UInt8} {a b : UInt8} :
      Reach q again top bytes k n false →
      bytes.drop k = line ++ 10 :: (data ++ a :: b :: rest) → 10 ∉ line →
      parseChunkSize (lineText q.decoding line) = .ok data.length → data ≠ [] →
      n + data.length ≤ top →
      Reach q again top bytes (k + line.length + 1 + data.length + 2) (n + data.length) false
  | field {k n : Nat} {line rest : List UInt8} : Reach q again top bytes k n true →
      bytes.drop k = line ++ 10 :: rest → 10 ∉ line → (walkText q line).isEmpty = false →
      Reach q again top bytes (k + line.length + 1) n true
  | ended {k n : Nat} {line rest : List UInt8} : again = true → Reach q again top bytes k n true →
      bytes.drop k = line ++ 10 :: rest → 10 ∉ line → (walkText q line).isEmpty = true →
      Reach q again top bytes (k + line.length + 1) n true

variable {bytes : List UInt8} {again : Bool} {top k n : Nat} {t : Bool}

theorem drop_after {front rest : List UInt8} (h : bytes.drop k = front ++ rest)
    (hn : front.length = n) : bytes.drop (k + n) = rest := by
  rw [← List.drop_drop, h, ← hn, List.drop_left]

theorem drop_line {line rest : List UInt8} (h : bytes.drop k = line ++ 10 :: rest) :
    bytes.drop (k + line.length + 1) = rest := by
  have hsplit : bytes.drop k = (line ++ [10]) ++ rest := by
    rw [h, List.append_assoc]
    rfl
  have hlen : (line ++ [10]).length = line.length + 1 := by rw [List.length_append]; rfl
  have hafter := drop_after hsplit hlen
  rwa [← Nat.add_assoc] at hafter

theorem drop_chunk {line data rest : List UInt8} {a b : UInt8}
    (h : bytes.drop k = line ++ 10 :: (data ++ a :: b :: rest)) :
    bytes.drop (k + line.length + 1 + data.length + 2) = rest := by
  have hrest := drop_line h
  have hsplit : bytes.drop (k + line.length + 1) = (data ++ [a, b]) ++ rest := by
    rw [hrest, List.append_assoc]
    rfl
  have hlen : (data ++ [a, b]).length = data.length + 2 := by rw [List.length_append]; rfl
  have hafter := drop_after hsplit hlen
  rwa [← Nat.add_assoc] at hafter

theorem drop_within {front : List UInt8} (h : bytes.drop k = front) (hne : front ≠ []) :
    k ≤ bytes.length := by
  by_contra hlt
  rw [List.drop_eq_nil_of_le (Nat.le_of_not_le hlt)] at h
  exact hne h.symm

theorem drop_more {front : List UInt8} (h : bytes.drop k = front) (hne : front ≠ [])
    (more : List UInt8) : (bytes ++ more).drop k = front ++ more := by
  rw [List.drop_append_of_le_length (drop_within h hne), h]

/-- Bytes that arrive change nothing of what has been walked. -/
theorem Reach.more (h : Reach q again top bytes k n t) (more : List UInt8) :
    Reach q again top (bytes ++ more) k n t := by
  induction h with
  | start => exact .start
  | last _ hdrop hline hsize ih =>
      have hdrop := drop_more hdrop (by simp) more
      rw [List.append_assoc, List.cons_append] at hdrop
      exact .last ih hdrop hline hsize
  | chunk _ hdrop hline hsize hdata htop ih =>
      have hdrop := drop_more hdrop (by simp) more
      rw [List.append_assoc, List.cons_append, List.append_assoc, List.cons_append,
        List.cons_append] at hdrop
      exact .chunk ih hdrop hline hsize hdata htop
  | field _ hdrop hline htext ih =>
      have hdrop := drop_more hdrop (by simp) more
      rw [List.append_assoc, List.cons_append] at hdrop
      exact .field ih hdrop hline htext
  | ended hagain _ hdrop hline htext ih =>
      have hdrop := drop_more hdrop (by simp) more
      rw [List.append_assoc, List.cons_append] at hdrop
      exact .ended hagain ih hdrop hline htext

theorem Reach.weaken (h : Reach q again top bytes k n t) : Reach q true top bytes k n t := by
  induction h with
  | start => exact .start
  | last _ hdrop hline hsize ih => exact .last ih hdrop hline hsize
  | chunk _ hdrop hline hsize hdata htop ih => exact .chunk ih hdrop hline hsize hdata htop
  | field _ hdrop hline htext ih => exact .field ih hdrop hline htext
  | ended _ _ hdrop hline htext ih => exact .ended rfl ih hdrop hline htext

/-- Safe for the reader from where the walk stands. -/
def WalkSafe (q : Platform) : Bool → List UInt8 → Prop
  | false, bytes => Safe q.decoding bytes
  | true, bytes => TrailersSafe q.decoding bytes

theorem emptyLine_safe {line : List UInt8} (rest : List UInt8) (hline : 10 ∉ line)
    (htext : (walkText q line).isEmpty = true) :
    TrailersSafe q.decoding (line ++ 10 :: rest) := by
  rw [walkText_eq] at htext
  exact .bad rest hline fun field => trailerField_rtrim htext field

/-- Where the walk stands tells what can be read of the whole, unless a bare line feed has put the
two out of step; what then follows is not read. -/
theorem Reach.safe (h : Reach q true top bytes k n t) (hbare : ¬BareLf q.decoding top bytes) :
    (t = false → ¬BareLf q.decoding (top - n) (bytes.drop k)) ∧
        (WalkSafe q t (bytes.drop k) → Safe q.decoding bytes) ∨
      ((10 ∈ bytes.drop k ∨ 2 < (bytes.drop k).length) → Safe q.decoding bytes) := by
  induction h with
  | start => exact .inl ⟨fun _ => hbare, id⟩
  | @last k n line rest _ hdrop hline hsize ih =>
      rw [drop_line hdrop]
      rcases ih with ⟨-, hsafe⟩ | hlost
      · refine .inl ⟨fun h => absurd h (by decide), fun htrailers => hsafe ?_⟩
        rw [hdrop]
        exact Safe.last hline hsize htrailers
      · exact .inr fun _ => hlost (.inl (by rw [hdrop]; simp))
  | @chunk k n line data rest a b _ hdrop hline hsize hdata htop ih =>
      rw [drop_chunk hdrop]
      rcases ih with ⟨hnot, hsafe⟩ | hlost
      · have hnot := hnot rfl
        have hbudget : data.length ≤ top - n := by omega
        rw [hdrop] at hnot hsafe
        have ha : a ≠ 10 := by
          rintro rfl
          exact hnot (.here _ _ hline hsize hdata hbudget)
        by_cases hcrlf : a = 13 ∧ b = 10
        · obtain ⟨rfl, rfl⟩ := hcrlf
          rw [← Nat.sub_sub]
          refine .inl ⟨fun _ hlater => hnot (.later hline hsize hdata hbudget hlater),
            fun hrest => ?_⟩
          have hsep : (10 : UInt8) ∉ [13] := by decide
          exact hsafe (Safe.chunk hline hsize hdata hsep (by decide) hrest)
        · refine .inr fun hmore => hsafe (Safe.broken hline hsize hdata ?_)
          by_cases hb : b = 10
          · subst hb
            have hfirst : 10 ∉ [a] := by simpa using Ne.symm ha
            refine Broken.line rest hfirst ?_
            have hchomp : chomp [a] = [a] := by
              unfold Stream.chomp
              rw [if_neg]
              simpa using fun h : a = 13 => hcrlf ⟨h, rfl⟩
            rw [hchomp]
            exact List.cons_ne_nil _ _
          · by_cases hlf : 10 ∈ rest
            · obtain ⟨front, tail, rfl, hfront⟩ := List.eq_append_cons_of_mem hlf
              have hfirst : 10 ∉ a :: b :: front := by
                simp only [List.mem_cons, not_or]
                exact ⟨Ne.symm ha, Ne.symm hb, hfront⟩
              refine Broken.line tail hfirst ?_
              · unfold Stream.chomp
                split
                · exact fun hnil => absurd (congrArg List.length hnil) (by simp)
                · exact List.cons_ne_nil _ _
            · refine Broken.long ?_ ?_
              · simp only [List.mem_cons, not_or]
                exact ⟨Ne.symm ha, Ne.symm hb, hlf⟩
              · have hlong := hmore.resolve_left hlf
                simp only [List.length_cons]
                omega
      · exact .inr fun _ => hlost (.inl (by rw [hdrop]; simp))
  | @field k n line rest _ hdrop hline htext ih =>
      rw [drop_line hdrop]
      rcases ih with ⟨-, hsafe⟩ | hlost
      · refine .inl ⟨fun h => absurd h (by decide), fun htrailers => hsafe ?_⟩
        rw [hdrop]
        exact TrailersSafe.field hline htrailers
      · exact .inr fun _ => hlost (.inl (by rw [hdrop]; simp))
  | @ended k n line rest _ _ hdrop hline htext ih =>
      rw [drop_line hdrop]
      refine .inr fun _ => ?_
      rcases ih with ⟨-, hsafe⟩ | hlost
      · refine hsafe ?_
        rw [hdrop]
        exact emptyLine_safe rest hline htext
      · exact hlost (.inl (by rw [hdrop]; simp))

end Zuri.Http.H1
