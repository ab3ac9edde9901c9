import Mathlib.Data.List.Basic
import Zuri.Modules.JsonScan

/-!
The decoder accepts exactly the texts of the lenient grammar, and gives the value the grammar
gives. Both directions are by the parser's own recursion, with two rounds of it to a character.
-/

namespace Zuri.Json

variable {comments : Bool}

theorem parseLiteral_sound {literal s r : Text} {v w : Value}
    (h : parseLiteral literal v s = .ok (w, r)) : s = literal ++ r ∧ w = v := by
  unfold parseLiteral at h
  split at h
  · next hprefix =>
      simp only [Except.ok.injEq, Prod.mk.injEq] at h
      obtain ⟨rfl, rfl⟩ := h
      obtain ⟨t, rfl⟩ := List.isPrefixOf_iff_prefix.mp hprefix
      rw [List.drop_left]
      exact ⟨rfl, rfl⟩
  · exact absurd h (by simp)

theorem parseLiteral_complete (literal r : Text) (v : Value) :
    parseLiteral literal v (literal ++ r) = .ok (v, r) := by
  unfold parseLiteral
  rw [if_pos (List.isPrefixOf_iff_prefix.mpr (List.prefix_append _ _)), List.drop_left]

theorem Blanks.trans {g : Grammar} {s t r : Text} (h : Blanks g s t) (h' : Blanks g t r) :
    Blanks g s r := by
  induction h with
  | done s => exact h'
  | space hc _ ih => exact .space hc (ih h')
  | line hc hs _ ih => exact .line hc hs (ih h')
  | block hc hs _ ih => exact .block hc hs (ih h')

theorem IsItems.blanks {g : Grammar} {s s' r : Text} {items : List Value}
    (h : IsItems g s' items r) (hb : Blanks g s s') : IsItems g s items r := by
  cases h with
  | last h₁ hv h₂ => exact .last (hb.trans h₁) hv h₂
  | more h₁ hv h₂ hs => exact .more (hb.trans h₁) hv h₂ hs

theorem IsPairs.blanks {g : Grammar} {s s' r : Text} {pairs : List (Text × Value)}
    (h : IsPairs g s' pairs r) (hb : Blanks g s s') : IsPairs g s pairs r := by
  cases h with
  | last h₁ hk h₂ h₃ hv h₄ => exact .last (hb.trans h₁) hk h₂ h₃ hv h₄
  | more h₁ hk h₂ h₃ hv h₄ hs => exact .more (hb.trans h₁) hk h₂ h₃ hv h₄ hs

theorem scanMinus_text (s : Text) : s = minusText (scanMinus s).1 ++ (scanMinus s).2 := by
  unfold scanMinus
  split <;> rfl

theorem scanMinus_digit {c : Char} {s : Text} (hc : c.isDigit = true) :
    scanMinus (c :: s) = (false, c :: s) := by
  unfold scanMinus
  split
  · next heq =>
      rw [(List.cons.inj heq).1] at hc
      exact absurd hc (by decide)
  · rfl

theorem parseNumber_sound {c : Char} {s r : Text} {v : Value}
    (h : parseNumber (c :: s) = .ok (v, r)) (hc : c = '-' ∨ c.isDigit = true) :
    IsValue (lenient comments) (c :: s) v r := by
  have hfirst : (scanMinus (c :: s)).1 = true ∨ (scanMinus (c :: s)).2 = c :: s ∧ c.isDigit := by
    rcases hc with rfl | hc
    · exact .inl rfl
    · rw [scanMinus_digit hc]
      exact .inr ⟨rfl, hc⟩
  have htext := scanMinus_text (c :: s)
  unfold parseNumber at h
  generalize scanMinus (c :: s) = p at h hfirst htext
  obtain ⟨neg, t⟩ := p
  obtain ⟨hscan, hwritten⟩ := scanNumeral_text t
  simp only [parseF64_written hwritten] at h
  cases hdecimal : (scanNumeral t).1.isDecimal with
  | false => simp [hdecimal] at h
  | true =>
      simp only [hdecimal, if_true, Except.ok.injEq, Prod.mk.injEq] at h
      obtain ⟨rfl, rfl⟩ := h
      have hwhole : neg = true ∨ (scanNumeral t).1.whole ≠ [] := by
        refine hfirst.imp id ?_
        rintro ⟨rfl, hc⟩
        change (c :: s).takeWhile Char.isDigit ≠ []
        rw [List.takeWhile_cons_of_pos hc]
        exact List.cons_ne_nil _ _
      rw [htext]
      change IsValue _ (minusText neg ++ t) _ _
      rw [hscan, ← List.append_assoc, ← hscan]
      exact IsValue.number _ ⟨hwritten, hdecimal, hwhole⟩

theorem bind_ok {α β : Type} {x : Except String α} {f : α → Except String β} {b : β} :
    (x >>= f) = .ok b ↔ ∃ a, x = .ok a ∧ f a = .ok b := by
  cases x with
  | error e => simp [bind, Except.bind]
  | ok a => simp [bind, Except.bind]

theorem pure_ok {α : Type} {a b : α} : (pure a : Except String α) = .ok b ↔ a = b := by
  simp [pure, Except.pure]

section Sound

variable {fuel : Nat}

theorem parseValue_sound
    (ihItems : ∀ s items r, parseItems comments fuel s = .ok (items, r) →
      IsItems (lenient comments) s items r)
    (ihPairs : ∀ s pairs r, parsePairs comments fuel s = .ok (pairs, r) →
      IsPairs (lenient comments) s pairs r) {s : Text} {v : Value} {r : Text}
    (h : parseValue comments (fuel + 1) s = .ok (v, r)) :
    ∃ s₁, Blanks (lenient comments) s s₁ ∧ IsValue (lenient comments) s₁ v r := by
  have hblank := skipWs_blanks comments s
  rw [parseValue] at h
  cases hs : skipWs comments s with
  | nil => simp [hs] at h
  | cons c t =>
      rw [hs] at hblank
      simp only [hs] at h
      refine ⟨c :: t, hblank, ?_⟩
      have hinner := skipWs_blanks comments t
      split at h
      · next hc =>
          subst hc
          split at h
          · next t' heq =>
              rw [heq] at hinner
              simp only [Except.ok.injEq, Prod.mk.injEq] at h
              obtain ⟨rfl, rfl⟩ := h
              exact .emptyDict hinner
          · obtain ⟨⟨pairs, t'⟩, hpairs, h⟩ := bind_ok.mp h
            obtain ⟨rfl, rfl⟩ := Prod.mk.inj (pure_ok.mp h)
            exact .dict ((ihPairs _ _ _ hpairs).blanks hinner)
      · split at h
        · next hc =>
            subst hc
            split at h
            · next t' heq =>
                rw [heq] at hinner
                simp only [Except.ok.injEq, Prod.mk.injEq] at h
                obtain ⟨rfl, rfl⟩ := h
                exact .emptyList hinner
            · obtain ⟨⟨items, t'⟩, hitems, h⟩ := bind_ok.mp h
              obtain ⟨rfl, rfl⟩ := Prod.mk.inj (pure_ok.mp h)
              exact .list ((ihItems _ _ _ hitems).blanks hinner)
        · split at h
          · next hc =>
              subst hc
              obtain ⟨⟨text, t'⟩, htext, h⟩ := bind_ok.mp h
              obtain ⟨rfl, rfl⟩ := Prod.mk.inj (pure_ok.mp h)
              exact .string (parseJsonString_iff.mp htext)
          · split at h
            · obtain ⟨heq, rfl⟩ := parseLiteral_sound h
              rw [heq]
              exact .true r
            · split at h
              · obtain ⟨heq, rfl⟩ := parseLiteral_sound h
                rw [heq]
                exact .false r
              · split at h
                · obtain ⟨heq, rfl⟩ := parseLiteral_sound h
                  rw [heq]
                  exact .nil r
                · split at h
                  · next hc => exact parseNumber_sound h hc
                  · exact absurd h (by simp)

theorem parseItems_sound
    (ihValue : ∀ s v r, parseValue comments fuel s = .ok (v, r) →
      ∃ s₁, Blanks (lenient comments) s s₁ ∧ IsValue (lenient comments) s₁ v r)
    (ihItems : ∀ s items r, parseItems comments fuel s = .ok (items, r) →
      IsItems (lenient comments) s items r) {s : Text} {items : List Value} {r : Text}
    (h : parseItems comments (fuel + 1) s = .ok (items, r)) :
    IsItems (lenient comments) s items r := by
  rw [parseItems] at h
  obtain ⟨⟨v, t⟩, hv, h⟩ := bind_ok.mp h
  obtain ⟨s₁, hb, hvalue⟩ := ihValue _ _ _ hv
  have hafter := skipWs_blanks comments t
  simp only at h
  split at h
  · next t' heq =>
      rw [heq] at hafter
      obtain ⟨⟨rest, t''⟩, hrest, h⟩ := bind_ok.mp h
      obtain ⟨rfl, rfl⟩ := Prod.mk.inj (pure_ok.mp h)
      exact .more hb hvalue hafter
        ((ihItems _ _ _ hrest).blanks (skipWs_blanks comments t'))
  · next t' heq =>
      rw [heq] at hafter
      simp only [Except.ok.injEq, Prod.mk.injEq] at h
      obtain ⟨rfl, rfl⟩ := h
      exact .last hb hvalue hafter
  · exact absurd h (by simp)

theorem parsePairs_sound
    (ihValue : ∀ s v r, parseValue comments fuel s = .ok (v, r) →
      ∃ s₁, Blanks (lenient comments) s s₁ ∧ IsValue (lenient comments) s₁ v r)
    (ihPairs : ∀ s pairs r, parsePairs comments fuel s = .ok (pairs, r) →
      IsPairs (lenient comments) s pairs r) {s : Text} {pairs : List (Text × Value)} {r : Text}
    (h : parsePairs comments (fuel + 1) s = .ok (pairs, r)) :
    IsPairs (lenient comments) s pairs r := by
  have hblank := skipWs_blanks comments s
  rw [parsePairs] at h
  split at h
  · next t heq =>
      rw [heq] at hblank
      obtain ⟨⟨key, t₁⟩, hkey, h⟩ := bind_ok.mp h
      have hkey : Chars (lenient comments) t key t₁ := parseJsonString_iff.mp hkey
      have hcolon := skipWs_blanks comments t₁
      simp only at h
      split at h
      · next t₂ heq =>
          rw [heq] at hcolon
          obtain ⟨⟨v, t₃⟩, hv, h⟩ := bind_ok.mp h
          obtain ⟨s₁, hb, hvalue⟩ := ihValue _ _ _ hv
          have hafter := skipWs_blanks comments t₃
          simp only at h
          split at h
          · next t₄ heq =>
              rw [heq] at hafter
              obtain ⟨⟨rest, t₅⟩, hrest, h⟩ := bind_ok.mp h
              obtain ⟨rfl, rfl⟩ := Prod.mk.inj (pure_ok.mp h)
              exact .more hblank hkey hcolon hb hvalue hafter (ihPairs _ _ _ hrest)
          · next t₄ heq =>
              rw [heq] at hafter
              simp only [Except.ok.injEq, Prod.mk.injEq] at h
              obtain ⟨rfl, rfl⟩ := h
              exact .last hblank hkey hcolon hb hvalue hafter
          · exact absurd h (by simp)
      · exact absurd h (by simp)
  · exact absurd h (by simp)

end Sound

theorem parse_sound (fuel : Nat) :
    (∀ s v r, parseValue comments fuel s = .ok (v, r) →
      ∃ s₁, Blanks (lenient comments) s s₁ ∧ IsValue (lenient comments) s₁ v r) ∧
    (∀ s items r, parseItems comments fuel s = .ok (items, r) →
      IsItems (lenient comments) s items r) ∧
    (∀ s pairs r, parsePairs comments fuel s = .ok (pairs, r) →
      IsPairs (lenient comments) s pairs r) := by
  induction fuel with
  | zero =>
      refine ⟨fun s v r h => ?_, fun s items r h => ?_, fun s pairs r h => ?_⟩
      · exact absurd h (by simp [parseValue])
      · exact absurd h (by simp [parseItems])
      · exact absurd h (by simp [parsePairs])
  | succ fuel ih =>
      obtain ⟨ihValue, ihItems, ihPairs⟩ := ih
      exact ⟨fun _ _ _ h => parseValue_sound ihItems ihPairs h,
        fun _ _ _ h => parseItems_sound ihValue ihItems h,
        fun _ _ _ h => parsePairs_sound ihValue ihPairs h⟩

theorem numeral_head {neg : Bool} {u : Numeral} (hu : u.Written) (hd : u.isDecimal = true)
    (hwhole : neg = true ∨ u.whole ≠ []) (r : Text) :
    ∃ c t, minusText neg ++ u.text ++ r = c :: t ∧ (c = '-' ∨ c.isDigit = true) := by
  cases neg with
  | true => exact ⟨'-', u.text ++ r, rfl, .inl rfl⟩
  | false =>
      obtain ⟨whole, fraction, exponent⟩ := u
      cases whole with
      | nil => exact absurd rfl (hwhole.resolve_left Bool.false_ne_true)
      | cons c whole => exact ⟨c, _, rfl, .inr (hu.whole c List.mem_cons_self)⟩

/-- A value starts with a character of its own. -/
theorem IsValue.head {s r : Text} {v : Value} (h : IsValue (lenient comments) s v r) :
    ∃ c t, s = c :: t ∧ isWhitespace c = Bool.false ∧ c ≠ '/' ∧ c ≠ ']' := by
  cases h with
  | nil r => exact ⟨_, _, rfl, by decide, by decide, by decide⟩
  | true r => exact ⟨_, _, rfl, by decide, by decide, by decide⟩
  | false r => exact ⟨_, _, rfl, by decide, by decide, by decide⟩
  | string _ => exact ⟨_, _, rfl, by decide, by decide, by decide⟩
  | emptyList _ => exact ⟨_, _, rfl, by decide, by decide, by decide⟩
  | list _ => exact ⟨_, _, rfl, by decide, by decide, by decide⟩
  | emptyDict _ => exact ⟨_, _, rfl, by decide, by decide, by decide⟩
  | dict _ => exact ⟨_, _, rfl, by decide, by decide, by decide⟩
  | number r hu =>
      obtain ⟨hwritten, hdecimal, hwhole⟩ := hu
      obtain ⟨c, t, heq, hc⟩ := numeral_head hwritten hdecimal hwhole r
      rw [heq]
      refine ⟨c, t, rfl, ?_⟩
      rcases hc with rfl | hc
      · exact ⟨by decide, by decide, by decide⟩
      · obtain ⟨hspace, hslash⟩ := isDigit_not_space hc
        refine ⟨hspace, hslash, ?_⟩
        rintro rfl
        exact absurd hc (by decide)

theorem IsValue.stop {s r : Text} {v : Value} (h : IsValue (lenient comments) s v r) :
    Stop s := by
  obtain ⟨c, t, rfl, hspace, hslash, -⟩ := h.head
  intro d hd
  obtain rfl := Option.some.inj hd
  exact ⟨hspace, hslash⟩

theorem Numeral.isDecimal_text {u : Numeral} (h : u.isDecimal = true) : u.text ≠ [] := by
  obtain ⟨whole, fraction, exponent⟩ := u
  unfold isDecimal at h
  cases whole with
  | cons c whole => exact List.cons_ne_nil _ _
  | nil =>
      cases fraction with
      | some ds => exact List.cons_ne_nil _ _
      | none => simp at h

mutual

theorem IsValue.length {s r : Text} {v : Value} :
    IsValue (lenient comments) s v r → r.length < s.length
  | .nil r => by simp only [List.length_cons]; omega
  | .true r => by simp only [List.length_cons]; omega
  | .false r => by simp only [List.length_cons]; omega
  | .number r hu => by
      have htext := List.length_pos_iff.mpr (Numeral.isDecimal_text hu.2.1)
      simp only [List.length_append]
      omega
  | .string hs => Nat.lt_succ_of_lt hs.length
  | .emptyList hb => Nat.lt_of_succ_le (Nat.le_succ_of_le hb.length)
  | .list hs => Nat.lt_succ_of_lt hs.length
  | .emptyDict hb => Nat.lt_of_succ_le (Nat.le_succ_of_le hb.length)
  | .dict hs => Nat.lt_succ_of_lt hs.length

theorem IsItems.length {s r : Text} {items : List Value} :
    IsItems (lenient comments) s items r → r.length < s.length
  | .last h₁ hv h₂ => by
      have := h₁.length
      have := hv.length
      have := h₂.length
      simp only [List.length_cons] at *
      omega
  | .more h₁ hv h₂ hs => by
      have := h₁.length
      have := hv.length
      have := h₂.length
      have := hs.length
      simp only [List.length_cons] at *
      omega

theorem IsPairs.length {s r : Text} {pairs : List (Text × Value)} :
    IsPairs (lenient comments) s pairs r → r.length < s.length
  | .last h₁ hk h₂ h₃ hv h₄ => by
      have := h₁.length
      have := hk.length
      have := h₂.length
      have := h₃.length
      have := hv.length
      have := h₄.length
      simp only [List.length_cons] at *
      omega
  | .more h₁ hk h₂ h₃ hv h₄ hs => by
      have := h₁.length
      have := hk.length
      have := h₂.length
      have := h₃.length
      have := hv.length
      have := h₄.length
      have := hs.length
      simp only [List.length_cons] at *
      omega

end

theorem IsItems.skip_head {s r : Text} {items : List Value}
    (h : IsItems (lenient comments) s items r) :
    ∃ c t, skipWs comments s = c :: t ∧ c ≠ ']' := by
  cases h with
  | last h₁ hv _ | more h₁ hv _ _ =>
      obtain ⟨c, t, heq, -, -, hc⟩ := hv.head
      exact ⟨c, t, (h₁.skipWs_stop hv.stop).trans heq, hc⟩

theorem stop_of {c : Char} (hc : isWhitespace c = false ∧ c ≠ '/') (s : Text) : Stop (c :: s) := by
  intro d hd
  obtain rfl := Option.some.inj hd
  exact hc

theorem IsPairs.skip_head {s r : Text} {pairs : List (Text × Value)}
    (h : IsPairs (lenient comments) s pairs r) : ∃ t, skipWs comments s = '"' :: t := by
  cases h with
  | last h₁ _ _ _ _ _ | more h₁ _ _ _ _ _ _ =>
      exact ⟨_, h₁.skipWs_stop (stop_of (by decide) _)⟩

theorem numberStop_space {c : Char} (h : isWhitespace c = true) (s : Text) :
    NumberStop (c :: s) := by
  intro d hd
  obtain rfl := Option.some.inj hd
  refine ⟨?_, ?_, ?_, ?_, ?_, ?_⟩
  · by_contra hdigit
    rw [(isDigit_not_space (Bool.not_eq_false _ ▸ hdigit)).1] at h
    exact Bool.false_ne_true h
  all_goals
    rintro rfl
    exact absurd h (by decide)

theorem numberStop_of {c : Char} (hc : c = ',' ∨ c = ']' ∨ c = '\x7d' ∨ c = '/') (s : Text) :
    NumberStop (c :: s) := by
  intro d hd
  obtain rfl := Option.some.inj hd
  rcases hc with rfl | rfl | rfl | rfl <;> decide

theorem Blanks.numberStop {s r : Text} (h : Blanks (lenient comments) s r) (hr : NumberStop r) :
    NumberStop s := by
  cases h with
  | done s => exact hr
  | space hc _ => exact numberStop_space hc _
  | line _ _ _ => exact numberStop_of (by simp) _
  | block _ _ _ => exact numberStop_of (by simp) _

theorem parseNumber_complete {neg : Bool} {u : Numeral} (hu : u.Written)
    (hd : u.isDecimal = true) (hwhole : neg = true ∨ u.whole ≠ []) {r : Text}
    (hr : NumberStop r) :
    parseNumber (minusText neg ++ u.text ++ r) = .ok (.number (u.value neg), r) := by
  have hminus : scanMinus (minusText neg ++ u.text ++ r) = (neg, u.text ++ r) := by
    cases neg with
    | true => rfl
    | false =>
        obtain ⟨whole, fraction, exponent⟩ := u
        cases whole with
        | nil => exact absurd rfl (hwhole.resolve_left Bool.false_ne_true)
        | cons c whole => exact scanMinus_digit (hu.whole c List.mem_cons_self)
  unfold parseNumber
  rw [hminus]
  simp only [scanNumeral_written hu hr, parseF64_written hu, hd, if_true]

mutual

theorem IsValue.parse {s r : Text} {v : Value} : IsValue (lenient comments) s v r →
    NumberStop r → ∀ {s₀ : Text} (fuel : Nat), skipWs comments s₀ = s → 2 * s.length + 1 ≤ fuel →
      parseValue comments fuel s₀ = .ok (v, r) := by
  intro h hr s₀ fuel hskip hfuel
  obtain ⟨fuel, rfl⟩ := Nat.exists_eq_add_of_le' (show 1 ≤ fuel by omega)
  rw [parseValue, hskip]
  match h with
  | .nil r => exact parseLiteral_complete "null".toList r .nil
  | .true r => exact parseLiteral_complete "true".toList r (.bool true)
  | .false r => exact parseLiteral_complete "false".toList r (.bool false)
  | .string hs =>
      change (parseJsonString _ >>= _) = _
      rw [parseJsonString_iff.mpr hs]
      rfl
  | .number r hu =>
      obtain ⟨hwritten, hdecimal, hwhole⟩ := hu
      obtain ⟨c, t, heq, hc⟩ := numeral_head hwritten hdecimal hwhole r
      have hparse := parseNumber_complete hwritten hdecimal hwhole hr
      rw [heq] at hparse ⊢
      have hne : ∀ d : Char, d ≠ '-' → d.isDigit = false → c ≠ d := by
        rintro d hminus hdigit rfl
        rcases hc with hc | hc
        · exact hminus hc
        · rw [hdigit] at hc
          exact Bool.false_ne_true hc
      simp only
      rw [if_neg (hne _ (by decide) (by decide)), if_neg (hne _ (by decide) (by decide)),
        if_neg (hne _ (by decide) (by decide)), if_neg (hne _ (by decide) (by decide)),
        if_neg (hne _ (by decide) (by decide)), if_neg (hne _ (by decide) (by decide)), if_pos hc]
      exact hparse
  | .emptyList hb =>
      have hinner := hb.skipWs_stop (stop_of (by decide) _)
      simp only [hinner]
      rfl
  | .emptyDict hb =>
      have hinner := hb.skipWs_stop (stop_of (by decide) _)
      simp only [hinner]
      rfl
  | .list hs =>
      simp only [List.length_cons] at hfuel
      have hitems := hs.parse fuel (by omega)
      obtain ⟨c, t, heq, hc⟩ := hs.skip_head
      rw [heq] at hitems
      simp only [heq]
      change (match c :: t with
        | ']' :: s => Except.ok (Value.list [], s)
        | s => _) = _
      split
      · next heq => exact absurd (List.cons.inj heq).1 hc
      · rw [hitems]
        rfl
  | .dict hs =>
      simp only [List.length_cons] at hfuel
      obtain ⟨t, heq⟩ := hs.skip_head
      have hpairs := hs.parse fuel (skipWs_idem _) (by omega)
      rw [heq] at hpairs
      simp only [heq]
      change (parsePairs comments fuel ('"' :: t) >>= _) = _
      rw [hpairs]
      rfl

theorem IsItems.parse {s r : Text} {items : List Value} : IsItems (lenient comments) s items r →
    ∀ (fuel : Nat), 2 * s.length + 2 ≤ fuel →
      parseItems comments fuel (skipWs comments s) = .ok (items, r) := by
  intro h fuel hfuel
  obtain ⟨fuel, rfl⟩ := Nat.exists_eq_add_of_le' (show 1 ≤ fuel by omega)
  rw [parseItems]
  match h with
  | .last h₁ hv h₂ =>
      have hlen := h₁.length
      rw [h₁.skipWs_stop hv.stop, hv.parse (h₂.numberStop (numberStop_of (by simp) _)) fuel
        (skip_stop hv.stop) (by omega)]
      have hafter := h₂.skipWs_stop (stop_of (by decide) _)
      simp only [bind, Except.bind, hafter]
  | .more h₁ hv h₂ hs =>
      have hlen := h₁.length
      have hlen' := hv.length
      have hlen'' := h₂.length
      simp only [List.length_cons] at hlen''
      rw [h₁.skipWs_stop hv.stop, hv.parse (h₂.numberStop (numberStop_of (by simp) _)) fuel
        (skip_stop hv.stop) (by omega)]
      have hafter := h₂.skipWs_stop (stop_of (by decide) _)
      simp only [bind, Except.bind, hafter, hs.parse fuel (by omega)]
      rfl

theorem IsPairs.parse {s r : Text} {pairs : List (Text × Value)} :
    IsPairs (lenient comments) s pairs r → ∀ {s₀ : Text} (fuel : Nat),
      skipWs comments s₀ = skipWs comments s → 2 * s.length + 2 ≤ fuel →
        parsePairs comments fuel s₀ = .ok (pairs, r) := by
  intro h s₀ fuel hskip hfuel
  obtain ⟨fuel, rfl⟩ := Nat.exists_eq_add_of_le' (show 1 ≤ fuel by omega)
  rw [parsePairs, hskip]
  match h with
  | .last h₁ hk h₂ h₃ hv h₄ =>
      have hlen₁ := h₁.length
      have hlenk := hk.length
      have hlen₂ := h₂.length
      have hlen₃ := h₃.length
      simp only [List.length_cons] at hlen₁ hlen₂
      have hquote := h₁.skipWs_stop (stop_of (by decide) _)
      have hcolon := h₂.skipWs_stop (stop_of (by decide) _)
      have hafter := h₄.skipWs_stop (stop_of (by decide) _)
      have hvalue := hv.parse (h₄.numberStop (numberStop_of (by simp) _)) fuel
        (h₃.skipWs_stop hv.stop) (by omega)
      simp only [hquote, parseJsonString_iff.mpr hk, bind, Except.bind, hcolon, hvalue, hafter]
  | .more h₁ hk h₂ h₃ hv h₄ hs =>
      have hlen₁ := h₁.length
      have hlenk := hk.length
      have hlen₂ := h₂.length
      have hlen₃ := h₃.length
      have hlenv := hv.length
      have hlen₄ := h₄.length
      simp only [List.length_cons] at hlen₁ hlen₂ hlen₄
      have hquote := h₁.skipWs_stop (stop_of (by decide) _)
      have hcolon := h₂.skipWs_stop (stop_of (by decide) _)
      have hafter := h₄.skipWs_stop (stop_of (by decide) _)
      have hvalue := hv.parse (h₄.numberStop (numberStop_of (by simp) _)) fuel
        (h₃.skipWs_stop hv.stop) (by omega)
      simp only [hquote, parseJsonString_iff.mpr hk, bind, Except.bind, hcolon, hvalue, hafter,
        hs.parse fuel rfl (by omega)]
      rfl

end


/-- The decoder is the lenient grammar: it succeeds on its texts, with their values, and on no
others. -/
theorem decode_iff {s : Text} {v : Value} :
    decode comments s = .ok v ↔ IsText (lenient comments) s v := by
  unfold decode
  constructor
  · intro h
    obtain ⟨⟨w, r⟩, hparse, h⟩ := bind_ok.mp h
    simp only at h
    split at h
    · next hend =>
        obtain rfl := Except.ok.inj h
        obtain ⟨s₁, hb, hv⟩ := (parse_sound _).1 _ _ _ hparse
        have hafter := skipWs_blanks comments r
        rw [hend] at hafter
        exact ⟨s₁, r, hb, hv, hafter⟩
    · exact absurd h (by simp)
  · rintro ⟨s₁, r, hb, hv, hafter⟩
    have hlen := hb.length
    have hend : NumberStop r := hafter.numberStop fun c hc => absurd hc (by simp)
    have hskip : skipWs comments r = [] := hafter.skipWs_stop fun c hc => absurd hc (by simp)
    rw [hv.parse hend (2 * s.length + 1) (hb.skipWs_stop hv.stop) (by omega)]
    change (if skipWs comments r = [] then _ else _) = _
    rw [if_pos hskip]

/-- Every text of RFC 8259 is decoded to its value, with comments where white space may stand when
they are allowed; and what is decoded is, but for what the lenient grammar adds, such a text. -/
theorem decode_rfc8259 (comments : Bool) (s : Text) (v : Value) :
    (IsText (rfc8259 comments) s v → decode comments s = .ok v) ∧
      (decode comments s = .ok v → IsText (lenient comments) s v) :=
  ⟨fun h => decode_iff.mpr (h.mono (rfc8259_within comments)), decode_iff.mp⟩

theorem decode_rfc8259_one : decode true "true//".toList = .ok (.bool true) :=
  (decode_rfc8259 true "true//".toList (.bool true)).1
    ⟨_, ['/', '/'], .done _, .true _, .line rfl .finish (.done _)⟩

/-- A string after its opening quote: to its closing one, and what is left. -/
def splitString : Text → Text × Text
  | [] => ([], [])
  | [c] => ([c], [])
  | c :: d :: s =>
      if c = '"' then ([c], d :: s)
      else if c = '\\' then (c :: d :: (splitString s).1, (splitString s).2)
      else (c :: (splitString (d :: s)).1, (splitString (d :: s)).2)

/-- What is left after the first end of a block comment. -/
def afterBlock : Text → Option Text
  | [] => none
  | c :: s => if c = '*' ∧ s.head? = some '/' then some s.tail else afterBlock s

/-- A text without the line comments and the terminated block comments outside its strings. -/
def withoutComments : Nat → Text → Text
  | 0, s => s
  | _ + 1, [] => []
  | fuel + 1, c :: s =>
      if c = '"' then c :: (splitString s).1 ++ withoutComments fuel (splitString s).2
      else if c = '/' ∧ s.head? = some '/' then
        withoutComments fuel (s.dropWhile fun d => d ≠ '\n')
      else if c = '/' ∧ s.head? = some '*' then
        match afterBlock s.tail with
        | some rest => withoutComments fuel rest
        | none => c :: withoutComments fuel s
      else c :: withoutComments fuel s

/-- A comment within a literal is not removed, and a no-break space is taken for a blank. -/
theorem decode_rfc8259_fails :
    ¬((∃ v, decode true "tr/**/ue".toList = .ok v) ↔
        ∃ v, IsText (rfc8259 false) (withoutComments 8 "tr/**/ue".toList) v) ∧
      ¬((∃ v, decode false ['\u00a0', '1'] = .ok v) ↔
        ∃ v, IsText (rfc8259 false) ['\u00a0', '1'] v) := by
  refine ⟨fun h => ?_, fun h => ?_⟩
  · have htext : withoutComments 8 "tr/**/ue".toList = "true".toList := by decide
    rw [htext] at h
    obtain ⟨v, hv⟩ := h.mpr ⟨_, _, [], .done _, .true [], .done _⟩
    have herror : decode true "tr/**/ue".toList =
        .error "json.decode(): invalid literal, expected 'true'" := by rfl
    rw [herror] at hv
    exact absurd hv (by simp)
  · have hnumeral : (lenient false).numeral false ⟨['1'], none, none⟩ :=
      ⟨⟨List.forall_iff_forall_mem.mp (by decide), List.forall_iff_forall_mem.mp (by decide), by simp,
        by simp, by simp⟩, by decide, .inr (by decide)⟩
    have hone := IsValue.number [] hnumeral
    have htext : IsText (lenient false) ['\u00a0', '1'] _ :=
      ⟨['1'], [], .space (show isWhitespace '\u00a0' = true by decide) (.done _), hone, .done _⟩
    obtain ⟨v, s₁, s₂, hb, hv, -⟩ := h.mp ⟨_, decode_iff.mpr htext⟩
    have hs₁ : s₁ = ['\u00a0', '1'] := by
      cases hb with
      | done _ => rfl
      | space hc _ =>
          have hspace : '\u00a0' = ' ' ∨ '\u00a0' = '\t' ∨ '\u00a0' = '\n' ∨ '\u00a0' = '\r' := hc
          exact absurd hspace (by decide)
    subst hs₁
    obtain ⟨c, t, heq, hspace, -⟩ := (hv.mono (rfc8259_within false)).head
    obtain rfl := (List.cons.inj heq).1
    exact absurd hspace (by decide)

end Zuri.Json
