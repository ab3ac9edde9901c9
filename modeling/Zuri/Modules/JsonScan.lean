import Zuri.Modules.JsonGrammar

/-!
The scanners of the decoder against the grammar: what is skipped is blanks and nothing that
follows them, a numeral is read to its last character, and a string to its closing quote.
-/

namespace Zuri.Json

variable {comments : Bool}

/-- A text that no blank can open. -/
def Stop (s : Text) : Prop := ∀ c ∈ s.head?, isWhitespace c = false ∧ c ≠ '/'

/-- What is skipped in each of the states. -/
def Skipped (comments : Bool) : Skipping → Text → Text → Prop
  | .blanks, s, r => Blanks (lenient comments) s r
  | .line, s, r => ∃ s', LineEnd s s' ∧ Blanks (lenient comments) s' r
  | .opening, s, r => ∃ s', BlockEnd true s.tail s' ∧ Blanks (lenient comments) s' r
  | .block, s, r => ∃ s', BlockEnd true s s' ∧ Blanks (lenient comments) s' r
  | .closing, s, r => Blanks (lenient comments) s.tail r

theorem skip_skipped (s : Text) (m : Skipping) (hm : comments = true ∨ m = .blanks) :
    Skipped comments m s (skip comments s m) := by
  induction s generalizing m with
  | nil =>
      cases m with
      | blanks | closing => exact .done _
      | line => exact ⟨[], .finish, .done _⟩
      | opening | block => exact ⟨[], .finish rfl, .done _⟩
  | cons c s ih =>
      cases m with
      | blanks =>
          rw [skip]
          split
          · next hc => exact Blanks.space hc (ih .blanks (.inr rfl))
          · split
            · next h =>
                obtain ⟨hc, rfl, hhead⟩ := h
                obtain ⟨s', hs, hb⟩ := ih .line (.inl hc)
                cases s with
                | nil => exact absurd hhead (by simp)
                | cons d s =>
                    obtain rfl := Option.some.inj hhead
                    cases hs with
                    | char _ hs => exact Blanks.line hc hs hb
            · split
              · next h =>
                  obtain ⟨hc, rfl, hhead⟩ := h
                  obtain ⟨s', hs, hb⟩ := ih .opening (.inl hc)
                  cases s with
                  | nil => exact absurd hhead (by simp)
                  | cons d s =>
                      obtain rfl := Option.some.inj hhead
                      exact Blanks.block hc hs hb
              · exact Blanks.done _
      | line =>
          rw [skip]
          split
          · next hc =>
              rw [hc]
              exact ⟨s, .newline s, ih .blanks (.inr rfl)⟩
          · next hc =>
              obtain ⟨s', hs, hb⟩ := ih .line (.inl (hm.resolve_right (by simp)))
              exact ⟨s', .char hc hs, hb⟩
      | opening => exact ih .block (.inl (hm.resolve_right (by simp)))
      | block =>
          rw [skip]
          split
          · next h =>
              obtain ⟨rfl, hhead⟩ := h
              have hb := ih .closing (.inl (hm.resolve_right (by simp)))
              cases s with
              | nil => exact absurd hhead (by simp)
              | cons d s =>
                  obtain rfl := Option.some.inj hhead
                  exact ⟨s, .close s, hb⟩
          · next hc =>
              obtain ⟨s', hs, hb⟩ := ih .block (.inl (hm.resolve_right (by simp)))
              exact ⟨s', .char hc hs, hb⟩
      | closing => exact ih .blanks (.inr rfl)

theorem skipWs_blanks (comments : Bool) (s : Text) :
    Blanks (lenient comments) s (skipWs comments s) := skip_skipped s .blanks (.inr rfl)

theorem skip_stop {s : Text} (h : Stop s) : skipWs comments s = s := by
  cases s with
  | nil => rfl
  | cons c s =>
      obtain ⟨hspace, hslash⟩ := h c rfl
      rw [skipWs, skip, if_neg (by rw [hspace]; exact Bool.false_ne_true),
        if_neg fun hc => hslash hc.2.1, if_neg fun hc => hslash hc.2.1]

theorem skip_line {s r : Text} (h : LineEnd s r) :
    skip comments s .line = skip comments r .blanks := by
  induction h with
  | finish => rfl
  | newline s => rw [skip, if_pos rfl]
  | char hc _ ih => rw [skip, if_neg hc, ih]

theorem skip_block {a : Bool} {s r : Text} (h : BlockEnd a s r) :
    skip comments s .block = skip comments r .blanks := by
  induction h with
  | finish _ => rfl
  | close s => rw [skip, if_pos ⟨rfl, rfl⟩, skip]
  | char hc _ ih => rw [skip, if_neg hc, ih]

/-- Blanks are skipped, as far as they go. -/
theorem Blanks.skip {s r : Text} (h : Blanks (lenient comments) s r) :
    skipWs comments s = skipWs comments r := by
  unfold skipWs
  induction h with
  | done s => rfl
  | @space c s r hc _ ih =>
      have hspace : isWhitespace c = true := hc
      rw [Json.skip, if_pos hspace, ih]
  | line hc hs _ ih =>
      obtain rfl : comments = true := hc
      rw [Json.skip, if_neg (by decide), if_pos ⟨rfl, rfl, rfl⟩,
        skip_line (.char (by decide) hs), ih]
  | block hc hs _ ih =>
      obtain rfl : comments = true := hc
      rw [Json.skip, if_neg (by decide), if_neg fun h => absurd h.2.2 (by simp),
        if_pos ⟨rfl, rfl, rfl⟩, Json.skip, skip_block hs, ih]

theorem Blanks.skipWs_stop {s r : Text} (h : Blanks (lenient comments) s r) (hr : Stop r) :
    skipWs comments s = r := h.skip.trans (skip_stop hr)

theorem skipWs_idem (s : Text) : skipWs comments (skipWs comments s) = skipWs comments s :=
  ((skipWs_blanks comments s).skip).symm

theorem isDigit_not_space {c : Char} (h : c.isDigit = true) : isWhitespace c = false ∧ c ≠ '/' := by
  have hrange : 48 ≤ c.toNat ∧ c.toNat ≤ 57 := by
    simp only [Char.isDigit, Bool.and_eq_true, decide_eq_true_eq, ge_iff_le,
      UInt32.le_iff_toNat_le] at h
    exact h
  refine ⟨?_, ?_⟩
  · unfold isWhitespace
    simp
    omega
  · rintro rfl
    exact absurd hrange.1 (by decide)

/-- A text that no numeral before it would go on with. -/
def NumberStop (s : Text) : Prop :=
  ∀ c ∈ s.head?, c.isDigit = false ∧ c ≠ '.' ∧ c ≠ 'e' ∧ c ≠ 'E' ∧ c ≠ '+' ∧ c ≠ '-'

theorem span_digits {ds s : Text} (hds : ∀ c ∈ ds, c.isDigit = true)
    (hs : ∀ c ∈ s.head?, c.isDigit = false) :
    (ds ++ s).takeWhile Char.isDigit = ds ∧ (ds ++ s).dropWhile Char.isDigit = s := by
  rw [List.takeWhile_append_of_pos hds, List.dropWhile_append_of_pos hds]
  cases s with
  | nil => exact ⟨List.append_nil _, rfl⟩
  | cons c s =>
      have hc := hs c rfl
      rw [List.takeWhile_cons_of_neg (by simpa using hc),
        List.dropWhile_cons_of_neg (by simpa using hc)]
      exact ⟨List.append_nil _, rfl⟩

theorem takeWhile_digits (s : Text) : ∀ c ∈ s.takeWhile Char.isDigit, c.isDigit = true :=
  List.all_eq_true.mp List.all_takeWhile

theorem scanNumeral_text (s : Text) :
    s = (scanNumeral s).1.text ++ (scanNumeral s).2 ∧ (scanNumeral s).1.Written := by
  have hwhole := List.takeWhile_append_dropWhile (p := Char.isDigit) (l := s)
  have hfraction : ∀ t : Text, t = Numeral.fractionText (scanFraction t).1 ++ (scanFraction t).2 ∧
      ∀ c ∈ (scanFraction t).1.getD [], c.isDigit = true := by
    intro t
    unfold scanFraction
    split
    · next t =>
        refine ⟨?_, takeWhile_digits t⟩
        simp [Numeral.fractionText]
    · exact ⟨rfl, fun c hc => absurd hc (by simp)⟩
  have hsign : ∀ t : Text, t = (scanSign t).1 ++ (scanSign t).2 ∧
      ((scanSign t).1 = [] ∨ (scanSign t).1 = ['+'] ∨ (scanSign t).1 = ['-']) := by
    intro t
    unfold scanSign
    split
    · exact ⟨rfl, .inr (.inl rfl)⟩
    · exact ⟨rfl, .inr (.inr rfl)⟩
    · exact ⟨rfl, .inl rfl⟩
  have hexponent : ∀ t : Text, t = Numeral.exponentText (scanExponent t).1 ++ (scanExponent t).2 ∧
      ∀ e ∈ (scanExponent t).1, (e.1 = 'e' ∨ e.1 = 'E') ∧
        (e.2.1 = [] ∨ e.2.1 = ['+'] ∨ e.2.1 = ['-']) ∧ ∀ c ∈ e.2.2, c.isDigit = true := by
    intro t
    unfold scanExponent
    split
    · exact ⟨rfl, fun e he => absurd he (by simp)⟩
    · next c t =>
        split
        · next hc =>
            refine ⟨?_, fun e he => ?_⟩
            · simp only [Numeral.exponentText, List.cons_append, List.append_assoc,
                List.takeWhile_append_dropWhile]
              rw [← (hsign t).1]
            · obtain rfl := Option.some.inj he
              exact ⟨hc, (hsign t).2, takeWhile_digits _⟩
        · exact ⟨rfl, fun e he => absurd he (by simp)⟩
  obtain ⟨hf, hfd⟩ := hfraction (s.dropWhile Char.isDigit)
  obtain ⟨he, hed⟩ := hexponent (scanFraction (s.dropWhile Char.isDigit)).2
  refine ⟨?_, ⟨takeWhile_digits s, hfd, fun e h => (hed e h).1, fun e h => (hed e h).2.1,
    fun e h => (hed e h).2.2⟩⟩
  calc s = s.takeWhile Char.isDigit ++ s.dropWhile Char.isDigit := hwhole.symm
    _ = s.takeWhile Char.isDigit ++
          (Numeral.fractionText (scanFraction (s.dropWhile Char.isDigit)).1 ++
            (Numeral.exponentText (scanExponent (scanFraction (s.dropWhile Char.isDigit)).2).1 ++
              (scanExponent (scanFraction (s.dropWhile Char.isDigit)).2).2)) := by
        rw [← he, ← hf]
    _ = _ := by simp only [scanNumeral, Numeral.text, List.append_assoc]

/-- A numeral is read to its end, where what follows cannot belong to it. -/
theorem scanNumeral_written {u : Numeral} (hu : u.Written) {s : Text} (hs : NumberStop s) :
    scanNumeral (u.text ++ s) = (u, s) := by
  obtain ⟨whole, fraction, exponent⟩ := u
  have hexponent : scanExponent (Numeral.exponentText exponent ++ s) = (exponent, s) := by
    cases exponent with
    | none =>
        cases s with
        | nil => rfl
        | cons c s =>
            obtain ⟨-, -, he, hE, -⟩ := hs c rfl
            simp [Numeral.exponentText, scanExponent, he, hE]
    | some e =>
        obtain ⟨letter, sign, digits⟩ := e
        have hletter : letter = 'e' ∨ letter = 'E' := hu.letter _ rfl
        have hdigits : ∀ c ∈ digits, c.isDigit = true := hu.exponent _ rfl
        have hspan := span_digits hdigits fun c hc => (hs c hc).1
        have hscan : scanSign (sign ++ (digits ++ s)) = (sign, digits ++ s) := by
          rcases hu.sign _ rfl with h | h | h
          · change sign = [] at h
            subst h
            cases digits with
            | nil =>
                cases s with
                | nil => rfl
                | cons c s =>
                    obtain ⟨-, -, -, -, hplus, hminus⟩ := hs c rfl
                    change scanSign (c :: s) = ([], c :: s)
                    unfold scanSign
                    split
                    · next heq => exact absurd (List.cons.inj heq).1 hplus
                    · next heq => exact absurd (List.cons.inj heq).1 hminus
                    · rfl
            | cons c digits =>
                have hc := hdigits c List.mem_cons_self
                change scanSign (c :: (digits ++ s)) = ([], c :: (digits ++ s))
                unfold scanSign
                split
                · next heq =>
                    rw [(List.cons.inj heq).1] at hc
                    exact absurd hc (by decide)
                · next heq =>
                    rw [(List.cons.inj heq).1] at hc
                    exact absurd hc (by decide)
                · rfl
          · change sign = ['+'] at h
            subst h
            rfl
          · change sign = ['-'] at h
            subst h
            rfl
        simp only [Numeral.exponentText, List.cons_append, List.append_assoc, scanExponent,
          if_pos hletter, hscan, hspan.1, hspan.2]
  have hafter : ∀ c ∈ (Numeral.exponentText exponent ++ s).head?, c.isDigit = false ∧ c ≠ '.' := by
    intro c hc
    cases exponent with
    | none => exact ⟨(hs c hc).1, (hs c hc).2.1⟩
    | some e =>
        have hletter := hu.letter e rfl
        obtain rfl : e.1 = c := Option.some.inj hc
        rcases hletter with h | h <;> rw [h] <;> decide
  have hfraction : scanFraction
      (Numeral.fractionText fraction ++ (Numeral.exponentText exponent ++ s)) =
        (fraction, Numeral.exponentText exponent ++ s) := by
    cases fraction with
    | none =>
        change scanFraction (Numeral.exponentText exponent ++ s) = _
        unfold scanFraction
        split
        · next heq => exact absurd rfl (hafter '.' (by rw [heq]; rfl)).2
        · rfl
    | some ds =>
        have hspan := span_digits hu.fraction fun c hc => (hafter c hc).1
        change scanFraction ('.' :: (ds ++ (Numeral.exponentText exponent ++ s))) = _
        change (some _, _) = _
        exact congrArg₂ (fun a b => (some a, b)) hspan.1 hspan.2
  have hpoint : ∀ c ∈ (Numeral.fractionText fraction ++
      (Numeral.exponentText exponent ++ s)).head?, c.isDigit = false := by
    intro c hc
    cases fraction with
    | none => exact (hafter c hc).1
    | some ds =>
        obtain rfl : '.' = c := Option.some.inj hc
        decide
  have hspan := span_digits hu.whole hpoint
  unfold scanNumeral
  simp only [Numeral.text, List.append_assoc, hspan.1, hspan.2, hfraction, hexponent]

theorem Numeral.Written.head {u : Numeral} (hu : u.Written) :
    ∀ c ∈ u.text.head?, c.isDigit = true ∨ c = '.' ∨ c = 'e' ∨ c = 'E' := by
  obtain ⟨whole, fraction, exponent⟩ := u
  intro c hc
  cases whole with
  | cons d whole =>
      obtain rfl : d = c := Option.some.inj hc
      exact .inl (hu.whole d List.mem_cons_self)
  | nil =>
      cases fraction with
      | some ds => exact .inr (.inl (Option.some.inj hc).symm)
      | none =>
          cases exponent with
          | none => exact absurd hc (by simp [Numeral.text, fractionText, exponentText])
          | some e =>
              obtain rfl : e.1 = c := Option.some.inj hc
              exact .inr (.inr (hu.letter e rfl))

theorem toLower_head {c : Char} (hc : c.isDigit = true ∨ c = '.' ∨ c = 'e' ∨ c = 'E') :
    c.toLower ≠ 'i' ∧ c.toLower ≠ 'n' := by
  rcases hc with hc | rfl | rfl | rfl
  · have hlow : c.toLower = c := by
      unfold Char.toLower
      rw [dif_neg]
      rintro ⟨hA, -⟩
      simp only [Char.isDigit, Bool.and_eq_true, decide_eq_true_eq] at hc
      exact absurd (UInt32.le_trans hA hc.2) (by decide)
    rw [hlow]
    refine ⟨?_, ?_⟩
    · rintro rfl
      exact absurd hc (by decide)
    · rintro rfl
      exact absurd hc (by decide)
  · decide
  · decide
  · decide

/-- A numeral is a double exactly when it is a decimal. -/
theorem parseF64_written {u : Numeral} (hu : u.Written) (neg : Bool) :
    parseF64 (minusText neg ++ u.text) = if u.isDecimal then some (u.value neg) else none := by
  have hhead := hu.head
  have hunsigned : (scanSign (minusText neg ++ u.text)).2 = u.text ∧
      decide ((minusText neg ++ u.text).head? = some '-') = neg := by
    cases neg with
    | true => exact ⟨rfl, rfl⟩
    | false =>
        change (scanSign u.text).2 = u.text ∧ decide (u.text.head? = some '-') = false
        refine ⟨?_, decide_eq_false fun h => ?_⟩
        · unfold scanSign
          split
          · next heq => exact absurd (hhead '+' (by rw [heq]; rfl)) (by decide)
          · next heq => exact absurd (hhead '-' (by rw [heq]; rfl)) (by decide)
          · rfl
        · exact absurd (hhead '-' h) (by decide)
  have hscan : scanNumeral u.text = (u, []) := by
    have h := scanNumeral_written hu (s := []) fun c hc => absurd hc (by simp)
    rwa [List.append_nil] at h
  unfold parseF64
  simp only [hunsigned.1, hunsigned.2, hscan, true_and]
  cases u.isDecimal with
  | true => rfl
  | false =>
      have hword : ∀ c : Char, c = 'i' ∨ c = 'n' → ∀ w, u.text.map Char.toLower ≠ c :: w := by
        intro c hc w heq
        obtain ⟨d, t, htext, hlower, -⟩ := List.map_eq_cons_iff.mp heq
        have hd := toLower_head (hhead d (by rw [htext]; rfl))
        rw [hlower] at hd
        rcases hc with rfl | rfl
        · exact hd.1 rfl
        · exact hd.2 rfl
      have hinf : ¬(u.text.map Char.toLower = "inf".toList ∨
          u.text.map Char.toLower = "infinity".toList) := by
        rintro (h | h)
        · exact hword 'i' (.inl rfl) _ h
        · exact hword 'i' (.inl rfl) _ h
      have hnan : u.text.map Char.toLower ≠ "nan".toList := hword 'n' (.inr rfl) _
      simp only [Bool.false_eq_true, if_false, if_neg hinf, if_neg hnan]

theorem readHex4_iff {s r : Text} {n : Nat} : readHex4 s = .ok (n, r) ↔ Hex4 s n r := by
  unfold readHex4
  constructor
  · intro h
    rcases s with _ | ⟨a, _ | ⟨b, _ | ⟨c, _ | ⟨d, s⟩⟩⟩⟩
    · exact absurd h (by simp [readHex])
    · cases ha : hexValue a <;> simp [readHex, ha] at h
    · cases ha : hexValue a <;> cases hb : hexValue b <;> simp [readHex, ha, hb] at h
    · cases ha : hexValue a <;> cases hb : hexValue b <;> cases hc : hexValue c <;>
        simp [readHex, ha, hb, hc] at h
    · cases ha : hexValue a with
      | none => simp [readHex, ha] at h
      | some i =>
          cases hb : hexValue b with
          | none => simp [readHex, ha, hb] at h
          | some j =>
              cases hc : hexValue c with
              | none => simp [readHex, ha, hb, hc] at h
              | some k =>
                  cases hd : hexValue d with
                  | none => simp [readHex, ha, hb, hc, hd] at h
                  | some l =>
                      simp only [readHex, ha, hb, hc, hd, Nat.zero_mul, Nat.zero_add,
                        Except.ok.injEq, Prod.mk.injEq] at h
                      obtain ⟨rfl, rfl⟩ := h
                      exact .digits s ha hb hc hd
  · rintro ⟨r, ha, hb, hc, hd⟩
    simp only [readHex, ha, hb, hc, hd, Nat.zero_mul, Nat.zero_add]

theorem shortEscape_u : shortEscape 'u' = none := by decide

/-- What a backslash opens. -/
inductive Escape : Text → Char → Text → Prop
  | short {c d : Char} (s : Text) : shortEscape c = some d → Escape (c :: s) d s
  | unicode {s s' : Text} {n : Nat} {c : Char} : Hex4 s n s' → isHigh n = false →
      charFromU32 n = some c → Escape ('u' :: s) c s'
  | pair {s s' s'' : Text} {m n : Nat} {c : Char} : Hex4 s m ('\\' :: 'u' :: s') →
      isHigh m = true → Hex4 s' n s'' → isLow n = true →
      charFromU32 (combined m n) = some c →
      Escape ('u' :: s) c s''

theorem lowSurrogate_iff {s r : Text} {m : Nat} {c : Char} : lowSurrogate m s = .ok (c, r) ↔
    ∃ s' n, s = '\\' :: 'u' :: s' ∧ Hex4 s' n r ∧ isLow n = true ∧
      charFromU32 (combined m n) = some c := by
  unfold lowSurrogate
  constructor
  · intro h
    split at h
    · next htake =>
        have hs : s = '\\' :: 'u' :: s.drop 2 := by
          have hsplit := List.take_append_drop 2 s
          rw [htake] at hsplit
          exact hsplit.symm
        cases hhex : readHex4 (s.drop 2) with
        | error e => simp [hhex] at h
        | ok p =>
            obtain ⟨n, t⟩ := p
            simp only [hhex] at h
            split at h
            · next hlow =>
                split at h
                · next hc =>
                    simp only [Except.ok.injEq, Prod.mk.injEq] at h
                    obtain ⟨rfl, rfl⟩ := h
                    exact ⟨s.drop 2, n, hs, readHex4_iff.mp hhex, hlow, hc⟩
                · exact absurd h (by simp)
            · exact absurd h (by simp)
    · exact absurd h (by simp)
  · rintro ⟨s', n, rfl, hhex, hlow, hc⟩
    have htake : List.take 2 ('\\' :: 'u' :: s') = ['\\', 'u'] := rfl
    have hdrop : List.drop 2 ('\\' :: 'u' :: s') = s' := rfl
    rw [if_pos htake, hdrop, readHex4_iff.mpr hhex]
    simp only [hlow, if_true, hc]

theorem escape_sound {s r : Text} {c : Char} (h : escape s = .ok (c, r)) : Escape s c r := by
  cases s with
  | nil => exact absurd h (by simp [escape])
  | cons d s =>
      rw [escape] at h
      cases hd : shortEscape d with
      | some e =>
          simp only [hd, Except.ok.injEq, Prod.mk.injEq] at h
          obtain ⟨rfl, rfl⟩ := h
          exact .short s hd
      | none =>
          simp only [hd] at h
          split at h
          · next hu =>
              subst hu
              unfold unicodeEscape at h
              cases hhex : readHex4 s with
              | error e => simp [hhex] at h
              | ok p =>
                  obtain ⟨m, s'⟩ := p
                  simp only [hhex] at h
                  have hm := readHex4_iff.mp hhex
                  split at h
                  · next hhigh =>
                      obtain ⟨t, n, rfl, hn, hlow, hc⟩ := lowSurrogate_iff.mp h
                      exact .pair hm hhigh hn hlow hc
                  · next hhigh =>
                      split at h
                      · next hc =>
                          simp only [Except.ok.injEq, Prod.mk.injEq] at h
                          obtain ⟨rfl, rfl⟩ := h
                          exact .unicode hm (Bool.eq_false_iff.mpr hhigh) hc
                      · exact absurd h (by simp)
          · exact absurd h (by simp)

theorem escape_complete {s r : Text} {c : Char} (h : Escape s c r) : escape s = .ok (c, r) := by
  have hu : ∀ t : Text, escape ('u' :: t) = unicodeEscape t := by
    intro t
    rw [escape, shortEscape_u]
    rfl
  cases h with
  | short s hc => simp only [escape, hc]
  | unicode hhex hhigh hc =>
      rw [hu, unicodeEscape, readHex4_iff.mpr hhex]
      simp only [hhigh, Bool.false_eq_true, if_false, hc]
  | pair hhex hhigh hhex' hlow hc =>
      rw [hu, unicodeEscape, readHex4_iff.mpr hhex]
      simp only [hhigh, if_true]
      exact lowSurrogate_iff.mpr ⟨_, _, rfl, hhex', hlow, hc⟩

theorem Chars.escape {g : Grammar} {s s' text r : Text} {c : Char} (h : Escape s c s')
    (hrest : Chars g s' text r) : Chars g ('\\' :: s) (c :: text) r := by
  cases h with
  | short s hc => exact .short hc hrest
  | unicode hhex hhigh hc => exact .unicode hhex hhigh hc hrest
  | pair hhex hhigh hhex' hlow hc => exact .pair hhex hhigh hhex' hlow hc hrest

theorem parseChars_sound {fuel : Nat} {s text r : Text}
    (h : parseChars fuel s = .ok (text, r)) : Chars (lenient comments) s text r := by
  induction fuel generalizing s text with
  | zero => exact absurd h (by simp [parseChars])
  | succ fuel ih =>
      cases s with
      | nil => exact absurd h (by simp [parseChars])
      | cons c s =>
          rw [parseChars] at h
          split at h
          · next hquote =>
              simp only [Except.ok.injEq, Prod.mk.injEq] at h
              obtain ⟨rfl, rfl⟩ := h
              rw [hquote]
              exact .close s
          · next hquote =>
              split at h
              · next hslash =>
                  subst hslash
                  cases hesc : Json.escape s with
                  | error e => simp [hesc, bind, Except.bind] at h
                  | ok p =>
                      obtain ⟨d, s'⟩ := p
                      cases hrest : parseChars fuel s' with
                      | error e => simp [hesc, hrest, bind, Except.bind] at h
                      | ok p =>
                          simp only [hesc, hrest, bind, Except.bind, pure, Except.pure,
                            Except.ok.injEq, Prod.mk.injEq] at h
                          obtain ⟨rfl, rfl⟩ := h
                          exact .escape (escape_sound hesc) (ih hrest)
              · next hslash =>
                  cases hrest : parseChars fuel s with
                  | error e => simp [hrest, bind, Except.bind] at h
                  | ok p =>
                      simp only [hrest, bind, Except.bind, pure, Except.pure, Except.ok.injEq,
                        Prod.mk.injEq] at h
                      obtain ⟨rfl, rfl⟩ := h
                      exact .plain hquote hslash trivial (ih hrest)

/-- A round of the loop at a backslash. -/
theorem parseChars_escape {fuel : Nat} {s s' text r : Text} {c : Char} (h : Escape s c s')
    (hrest : parseChars fuel s' = .ok (text, r)) :
    parseChars (fuel + 1) ('\\' :: s) = .ok (c :: text, r) := by
  rw [parseChars, if_neg (by decide), if_pos rfl, escape_complete h]
  simp only [bind, Except.bind, hrest]
  rfl

theorem parseChars_complete {s text r : Text} (h : Chars (lenient comments) s text r) {fuel : Nat}
    (hfuel : s.length ≤ fuel) : parseChars (fuel + 1) s = .ok (text, r) := by
  induction h generalizing fuel with
  | close r => rw [parseChars, if_pos rfl]
  | plain hquote hslash _ _ ih =>
      simp only [List.length_cons] at hfuel
      obtain ⟨fuel, rfl⟩ := Nat.exists_eq_add_of_le' (show 1 ≤ fuel by omega)
      rw [parseChars, if_neg hquote, if_neg hslash, ih (by omega)]
      rfl
  | short hc _ ih =>
      simp only [List.length_cons] at hfuel
      obtain ⟨fuel, rfl⟩ := Nat.exists_eq_add_of_le' (show 1 ≤ fuel by omega)
      exact parseChars_escape (.short _ hc) (ih (by omega))
  | unicode hhex hhigh hc _ ih =>
      have hlen := hhex.length
      simp only [List.length_cons] at hfuel
      obtain ⟨fuel, rfl⟩ := Nat.exists_eq_add_of_le' (show 1 ≤ fuel by omega)
      exact parseChars_escape (.unicode hhex hhigh hc) (ih (by omega))
  | pair hhex hhigh hhex' hlow hc _ ih =>
      have hlen := hhex.length
      have hlen' := hhex'.length
      simp only [List.length_cons] at hfuel hlen
      obtain ⟨fuel, rfl⟩ := Nat.exists_eq_add_of_le' (show 1 ≤ fuel by omega)
      exact parseChars_escape (.pair hhex hhigh hhex' hlow hc) (ih (by omega))

theorem parseJsonString_iff {s text r : Text} :
    parseJsonString s = .ok (text, r) ↔ Chars (lenient comments) s text r :=
  ⟨parseChars_sound, fun h => parseChars_complete h (Nat.le_refl _)⟩

end Zuri.Json
