import Zuri.Libs.Yaml

/-!
Where the parser ends. What runs under a bound on the characters left only moves forward, or
raises; what takes a character leaves fewer, and so the turns of a loop run out.
-/

namespace Zuri.Yaml

open Fuelled

variable {ν : Type} {strict : Bool}

/-- The second state is further on in the same text, as deep in flow collections. -/
structure Fwd (p p' : Parser ν) : Prop where
  rest : p'.sc.rest <:+ p.sc.rest
  depth : p'.flowDepth = p.flowDepth

namespace Fwd

variable {p p' p'' : Parser ν}

theorem refl (p : Parser ν) : Fwd p p := ⟨List.suffix_refl _, rfl⟩

theorem trans (h : Fwd p p') (h' : Fwd p' p'') : Fwd p p'' :=
  ⟨h'.rest.trans h.rest, h'.depth.trans h.depth⟩

theorem size_le (h : Fwd p p') : p'.size ≤ p.size := h.rest.length_le

end Fwd

theorem advance_rest (sc : Scanner) : sc.advance.rest = sc.rest.drop 1 := by
  obtain ⟨rest, line, col⟩ := sc
  cases rest with
  | nil => rfl
  | cons ch rest =>
      simp only [Scanner.advance, List.drop_succ_cons, List.drop_zero]
      split
      · rfl
      · rfl

theorem skip_rest (n : Nat) : ∀ sc : Scanner, (sc.skip n).rest = sc.rest.drop n := by
  induction n with
  | zero => exact fun sc => rfl
  | succ n ih =>
      intro sc
      rw [Scanner.skip, ih, advance_rest, List.drop_drop, Nat.add_comm]

theorem fwd_skip (n : Nat) (p : Parser ν) : Fwd p { p with sc := p.sc.skip n } :=
  ⟨by rw [skip_rest]; exact List.drop_suffix _ _, rfl⟩

/-- A run stops at a bracket only where it is asked to. -/
def Allowed (strict : Bool) (e : Stop) : Prop := e = .misplaced → strict = true

theorem allowed_fault (e : Fault) : Allowed strict (.fault e) := nofun

/-- With so many characters left at most, the computation raises or moves forward. -/
def Moves {α : Type} (strict : Bool) (k : Nat) (x : Parse ν α) : Prop :=
  ∀ p, p.size ≤ k → Ends (Allowed strict) x p fun _ p' => Fwd p p'

/-- The computation raises, or moves over a character at least. -/
def Eats {α : Type} (strict : Bool) (x : Parse ν α) (p : Parser ν) : Prop :=
  Ends (Allowed strict) x p fun _ p' => Fwd p p' ∧ p'.size < p.size

section
variable {α β γ : Type} {k : Nat} {x : Parse ν α} {f : α → Parse ν β} {p : Parser ν}

theorem moves_pure (a : α) : Moves strict k (pure a : Parse ν α) := fun p _ => Fwd.refl p

theorem moves_fault (e : Fault) : Moves strict k (raise (.fault e) : Parse ν α) := fun _ _ =>
  allowed_fault e

theorem moves_read (f : Parser ν → α) : Moves strict k (read f : Parse ν α) := fun p _ => Fwd.refl p

theorem ends_lift {r : Except Fault α} {post : α → Parser ν → Prop}
    (h : ∀ a, r = .ok a → post a p) : Ends (Allowed strict) (lift r : Parse ν α) p post := by
  cases r with
  | error e => exact allowed_fault e
  | ok a => exact h a rfl

theorem moves_lift (r : Except Fault α) : Moves strict k (lift r : Parse ν α) := fun p _ =>
  ends_lift fun _ _ => Fwd.refl p

theorem moves_skip (n : Nat) : Moves strict k (skip n : Parse ν Unit) := fun p _ => fwd_skip n p

theorem moves_bind (hx : Moves strict k x) (hf : ∀ a, Moves strict k (f a)) :
    Moves strict k (x >>= f) := by
  intro p hp
  rw [ends_bind]
  apply (hx p hp).mono
  intro a p' h
  exact (hf a p' (Nat.le_trans h.size_le hp)).mono fun _ _ h' => h.trans h'

theorem moves_map (hx : Moves strict k x) (g : α → β) : Moves strict k (g <$> x) := fun p hp =>
  ends_map.mpr (hx p hp)

theorem moves_ite {c : Prop} [Decidable c] {y : Parse ν α} (hx : Moves strict k x)
    (hy : Moves strict k y) :
    Moves strict k (if c then x else y) := by
  split
  · exact hx
  · exact hy

theorem Moves.le {n : Nat} (hx : Moves strict k x) (h : n ≤ k) : Moves strict n x := fun p hp =>
  hx p (Nat.le_trans hp h)

/-- What moves after a character is taken has one character less to move over. -/
theorem eats_bind (hx : Eats strict x p) (hp : p.size ≤ k + 1) (hf : ∀ a, Moves strict k (f a)) :
    Eats strict (x >>= f) p := by
  unfold Eats
  rw [ends_bind]
  apply Ends.mono hx
  intro a p' h
  exact (hf a p' (by have := h.2; omega)).mono fun _ _ h' =>
    ⟨h.1.trans h', Nat.lt_of_le_of_lt h'.size_le h.2⟩

theorem eats_skip {n : Nat} (hn : 0 < n) (h : 0 < p.size) : Eats strict (skip n) p := by
  refine ⟨fwd_skip n p, ?_⟩
  show (p.sc.skip n).rest.length < p.sc.rest.length
  rw [skip_rest, List.length_drop]
  exact Nat.sub_lt h hn

theorem size_pos {n : Nat} {ch : Char} (h : p.sc.rest[n]? = some ch) : 0 < p.size := by
  obtain ⟨hn, _⟩ := List.getElem?_eq_some_iff.mp h
  exact Nat.lt_of_le_of_lt (Nat.zero_le _) hn

theorem eats_advance (h : 0 < p.size) : Eats strict (advance : Parse ν Unit) p :=
  eats_skip Nat.one_pos h

/-- A turn leaves its loop, or takes a character. -/
def Steps (strict : Bool) (k : Nat) (x : Parse ν (Turn α β)) : Prop :=
  ∀ p, p.size ≤ k → Ends (Allowed strict) x p fun t p' =>
    Fwd p p' ∧ ∀ b, t = .next b → p'.size < p.size

theorem Eats.steps {x : Parse ν (Turn α β)} (h : Eats strict x p) :
    Ends (Allowed strict) x p fun t p' => Fwd p p' ∧ ∀ b, t = .next b → p'.size < p.size :=
  Ends.mono h fun _ _ h => ⟨h.1, fun _ _ => h.2⟩

theorem ends_done {x : Parse ν β} (hx : Moves strict k x) (hp : p.size ≤ k) :
    Ends (Allowed strict) (Turn.done <$> x : Parse ν (Turn α β)) p
      fun t p' => Fwd p p' ∧ ∀ b, t = .next b → p'.size < p.size :=
  ends_map.mpr ((hx p hp).mono fun _ _ h => ⟨h, fun _ hb => by cases hb⟩)

theorem ends_leave (c : β) : Ends (Allowed strict) (pure (.done c) : Parse ν (Turn α β)) p
    fun t p' => Fwd p p' ∧ ∀ b, t = .next b → p'.size < p.size :=
  ⟨Fwd.refl p, fun _ hb => by cases hb⟩

variable {turn : α → Parse ν (Turn α β)}

theorem ends_loop_steps (h : ∀ b, Steps strict k (turn b)) {fuel : Nat} (hp : p.size ≤ k)
    (hfuel : p.size < fuel) (b : α) :
    Ends (Allowed strict) (loop turn fuel b) p fun _ p' => Fwd p p' := by
  refine ends_loop Parser.size (fun _ p' => Fwd p p') ?_ fuel b p (Fwd.refl p) hfuel
  intro b p' hf
  apply (h b p' (Nat.le_trans hf.size_le hp)).mono
  intro t p'' ht
  cases t with
  | next b' => exact ⟨hf.trans ht.1, ht.2 b' rfl⟩
  | done c => exact hf.trans ht.1

theorem steps_bind {x : Parse ν β} {f : β → Parse ν (Turn α γ)} (hx : Moves strict k x)
    (hf : ∀ b, Steps strict k (f b)) : Steps strict k (x >>= f) := by
  intro p hp
  rw [ends_bind]
  apply (hx p hp).mono
  intro b p' h
  exact (hf b p' (Nat.le_trans h.size_le hp)).mono fun _ _ h' =>
    ⟨h.trans h'.1, fun b hb => Nat.lt_of_lt_of_le (h'.2 b hb) h.size_le⟩

/-- Where the first turn of a loop takes a character, the loop does. -/
theorem eats_loop (h : ∀ b, Steps strict k (turn b)) {fuel : Nat} (hp : p.size ≤ k)
    (hfuel : p.size < fuel) {b : α} (hfirst : Eats strict (turn b) p) :
    Eats strict (loop turn fuel b) p := by
  obtain ⟨n, rfl⟩ : ∃ n, fuel = n + 1 := ⟨fuel - 1, by omega⟩
  unfold Eats
  rw [loop, ends_bind]
  apply Ends.mono hfirst
  intro t p' h'
  cases t with
  | next b' =>
      exact (ends_loop_steps h (Nat.le_trans h'.1.size_le hp) (by have := h'.2; omega) b').mono
        fun _ _ h'' => ⟨h'.1.trans h'', Nat.lt_of_le_of_lt h''.size_le h'.2⟩
  | done c => exact h'

theorem eats_turns (h : ∀ b, Steps strict k (turn b)) (hp : p.size ≤ k) {b : α}
    (hfirst : Eats strict (turn b) p) : Eats strict (turns Parser.size turn b) p :=
  eats_loop h hp (Nat.lt_succ_self p.size) hfirst

theorem moves_turns (h : ∀ b, Steps strict k (turn b)) (b : α) :
    Moves strict k (turns Parser.size turn b) := fun p hp =>
  ends_loop_steps h hp (Nat.lt_succ_self p.size) b

end

section
variable {α : Type} {k : Nat}

theorem moves_advance : Moves strict k (advance : Parse ν Unit) := moves_skip 1

theorem moves_error (message : Text) : Moves strict k (error message : Parse ν α) :=
  moves_bind (moves_read _) fun _ => moves_fault _

theorem moves_takeCount (n : Nat) : Moves strict k (takeCount n : Parse ν Text) :=
  moves_bind (moves_read _) fun _ => moves_bind (moves_skip n) fun _ => moves_pure _

theorem moves_takeWhile (ok : Char → Bool) : Moves strict k (takeWhile ok : Parse ν Text) :=
  moves_bind (moves_read _) fun _ => moves_bind (moves_skip _) fun _ => moves_pure _

theorem moves_skipWhile (ok : Char → Bool) : Moves strict k (skipWhile ok : Parse ν Unit) :=
  moves_bind (moves_takeWhile ok) fun _ => moves_pure _

theorem moves_skipSpaces : Moves strict k (skipSpaces : Parse ν Unit) := moves_skipWhile isWs

theorem moves_skipInlineWs : Moves strict k (skipInlineWs : Parse ν Unit) :=
  moves_bind moves_skipSpaces fun _ => moves_bind (moves_read _) fun _ =>
    moves_ite (moves_skipWhile _) (moves_pure _)

theorem moves_consumeNewline : Moves strict k (consumeNewline : Parse ν Unit) :=
  moves_bind (moves_read _) fun _ => moves_ite moves_advance (moves_pure _)

theorem moves_skipWsAndComments : Moves strict k (skipWsAndComments : Parse ν Unit) :=
  moves_bind (moves_read _) fun _ => moves_skip _

theorem moves_skipBreak : Moves strict k (skipBreak : Parse ν Unit) :=
  moves_bind (moves_read _) fun _ =>
    moves_ite (moves_bind moves_consumeNewline fun _ => moves_skipWsAndComments) (moves_pure _)

theorem moves_skipColon : Moves strict k (skipColon : Parse ν Unit) :=
  moves_bind (moves_read _) fun _ => moves_ite moves_advance (moves_pure _)

theorem moves_skipKeyColon : Moves strict k (skipKeyColon : Parse ν Unit) :=
  moves_bind (moves_read _) fun _ =>
    moves_ite (moves_bind moves_advance fun _ => moves_skipSpaces) (moves_pure _)

theorem moves_skipComma : Moves strict k (skipComma : Parse ν Unit) :=
  moves_bind (moves_read _) fun _ =>
    moves_ite (moves_bind moves_advance fun _ => moves_skipWsAndComments) (moves_pure _)

/-- The computation moves, and takes a character where there is one. -/
structure Takes (strict : Bool) (k : Nat) (x : Parse ν α) : Prop where
  moves : Moves strict k x
  eats : ∀ p : Parser ν, p.size ≤ k + 1 → 0 < p.size → Eats strict x p

theorem takes_advance : Takes strict k (advance : Parse ν Unit) :=
  ⟨moves_advance, fun _ _ hpos => eats_advance hpos⟩

theorem takes_bind {β : Type} {x : Parse ν α} {f : α → Parse ν β} (hx : Takes strict k x)
    (hf : ∀ a, Moves strict k (f a)) : Takes strict k (x >>= f) :=
  ⟨moves_bind hx.moves hf, fun p hp hpos => eats_bind (hx.eats p hp hpos) hp hf⟩

theorem ends_error (message : Text) (p : Parser ν) (post : α → Parser ν → Prop) :
    Ends (Allowed strict) (error message) p post := allowed_fault _

theorem ends_read_bind {β : Type} {g : Parser ν → α} {f : α → Parse ν β} {p : Parser ν}
    {post : β → Parser ν → Prop} :
    Ends (Allowed strict) (read g >>= f) p post ↔ Ends (Allowed strict) (f (g p)) p post :=
  Iff.rfl

theorem ends_peek_bind {β : Type} {n : Nat} {f : Option Char → Parse ν β} {p : Parser ν}
    {post : β → Parser ν → Prop} :
    Ends (Allowed strict) (peek n >>= f) p post ↔ Ends (Allowed strict) (f p.sc.rest[n]?) p post :=
  Iff.rfl

end

section
variable {k : Nat}

theorem takes_parseAnchor : Takes strict k (parseAnchor : Parse ν Text) :=
  takes_bind takes_advance fun _ => moves_bind (moves_takeWhile _) fun _ =>
    moves_ite (moves_error _) (moves_pure _)

theorem takes_parseAlias : Takes strict k (parseAlias : Parse ν (Value ν)) := by
  refine takes_bind takes_advance fun _ => moves_bind (moves_takeWhile _) fun name => ?_
  refine moves_ite (moves_error _) (moves_bind (moves_read _) fun val => ?_)
  cases val with
  | none => exact moves_error _
  | some val => exact moves_pure _

theorem takes_parseTag : Takes strict k (parseTag : Parse ν Text) :=
  takes_bind takes_advance fun _ => moves_bind (moves_read _) fun _ =>
    moves_ite
      (moves_bind moves_advance fun _ => moves_bind (moves_takeWhile _) fun _ =>
        moves_bind (moves_read _) fun _ => moves_ite (moves_error _)
          (moves_bind moves_advance fun _ => moves_pure _))
      (moves_ite
        (moves_bind moves_advance fun _ => moves_bind (moves_takeWhile _) fun _ => moves_pure _)
        (moves_bind (moves_takeWhile _) fun _ => moves_pure _))

end

section
variable (host : Host ν) {k : Nat}

theorem takes_foldBreak : Takes strict k (foldBreak : Parse ν Text) :=
  takes_bind takes_advance fun _ => moves_bind (moves_takeWhile _) fun _ =>
    moves_bind (moves_skipWhile _) fun _ => moves_pure _

theorem moves_hexEscape (digits : Nat) : Moves strict k (hexEscape digits : Parse ν Text) :=
  moves_bind moves_advance fun _ => moves_bind (moves_takeCount _) fun _ =>
    moves_bind (moves_lift _) fun _ => moves_pure _

theorem moves_escape (esc : Char) : Moves strict k (escape esc : Parse ν Text) := by
  unfold escape
  cases DQUOTE_ESCAPES.lookup esc with
  | some ch => exact moves_bind moves_advance fun _ => moves_pure _
  | none =>
      exact moves_ite (moves_hexEscape 2) (moves_ite (moves_hexEscape 4)
        (moves_ite (moves_hexEscape 8) (moves_ite
          (moves_bind moves_advance fun _ => moves_bind (moves_skipWhile _) fun _ => moves_pure _)
          (moves_error _))))

theorem steps_doubleQuoted (tag : Option Text) (result : Text) :
    Steps strict k (doubleQuotedTurn host tag result) := by
  intro p hp
  have hle := Nat.le_succ_of_le hp
  rw [doubleQuotedTurn, ends_peek_bind]
  cases h : p.sc.rest[0]? with
  | none => exact ends_error _ _ _
  | some ch =>
      have hpos := size_pos h
      dsimp only
      apply Eats.steps
      split
      · exact eats_bind (eats_advance hpos) hle fun _ => moves_map (moves_lift _) _
      · split
        · refine eats_bind (eats_advance hpos) hle fun _ => moves_bind (moves_read _) fun esc => ?_
          cases esc with
          | none => exact moves_error _
          | some esc => exact moves_bind (moves_escape esc) fun _ => moves_pure _
        · split
          · exact eats_bind (takes_foldBreak.eats p hle hpos) hle fun _ => moves_pure _
          · exact eats_bind (eats_advance hpos) hle fun _ => moves_pure _

theorem takes_parseDoubleQuoted (tag : Option Text) : Takes strict k (parseDoubleQuoted host tag) :=
  takes_bind takes_advance fun _ => moves_turns (steps_doubleQuoted host tag) _

theorem steps_singleQuoted (tag : Option Text) (result : Text) :
    Steps strict k (singleQuotedTurn host tag result) := by
  intro p hp
  have hle := Nat.le_succ_of_le hp
  rw [singleQuotedTurn, ends_peek_bind]
  cases h : p.sc.rest[0]? with
  | none => exact ends_error _ _ _
  | some ch =>
      have hpos := size_pos h
      dsimp only
      apply Eats.steps
      split
      · exact eats_bind (eats_advance hpos) hle fun _ => moves_bind (moves_read _) fun _ =>
          moves_ite (moves_bind moves_advance fun _ => moves_pure _) (moves_map (moves_lift _) _)
      · split
        · exact eats_bind (takes_foldBreak.eats p hle hpos) hle fun _ => moves_pure _
        · exact eats_bind (eats_advance hpos) hle fun _ => moves_pure _

theorem takes_parseSingleQuoted (tag : Option Text) : Takes strict k (parseSingleQuoted host tag) :=
  takes_bind takes_advance fun _ => moves_turns (steps_singleQuoted host tag) _

theorem takes_plainBreak (indent : Nat) (pl : Plain) :
    Takes strict k (plainBreak indent pl : Parse ν (Option Plain)) :=
  takes_bind takes_advance fun _ => moves_bind (moves_read _) fun _ =>
    moves_bind (moves_skip _) fun _ => moves_bind (moves_read _) fun _ =>
      moves_ite (moves_pure _) (moves_bind (moves_read _) fun _ =>
        moves_bind (moves_read _) fun _ => moves_bind (moves_read _) fun _ =>
          moves_ite (moves_pure _)
          (moves_ite (moves_pure _) (moves_bind (moves_skipWhile _) fun _ => moves_pure _)))

theorem moves_plainEnd (tag : Option Text) (pl : Plain) : Moves strict k (plainEnd host tag pl) :=
  moves_map (moves_lift _) _

theorem ends_plainEnd (tag : Option Text) (pl : Plain) (p : Parser ν) :
    Ends (Allowed strict) (plainEnd host tag pl) p fun t p' =>
      Fwd p p' ∧ ∀ b, t = .next b → p'.size < p.size :=
  ends_done (moves_lift _) (Nat.le_refl p.size)

/-- A plain scalar does not end before the character. -/
def Opens (inFlow : Bool) (ch : Char) : Prop :=
  isFlowEnd ch = false ∧ ch ≠ '#' ∧ (ch = ':' → inFlow = true)

theorem ends_plainTurn (indent : Nat) (inFlow : Bool) (tag : Option Text) (pl : Plain)
    (p : Parser ν) : Ends (Allowed strict) (plainTurn host indent inFlow tag pl) p fun t p' =>
      (Fwd p p' ∧ ∀ b, t = .next b → p'.size < p.size) ∧
        ∀ ch, p.sc.rest[0]? = some ch → Opens inFlow ch → p'.size < p.size := by
  have hend : Ends (Allowed strict) (plainEnd host tag pl) p fun t p' =>
      Fwd p p' ∧ ∀ b, t = .next b → p'.size < p.size := ends_plainEnd host tag pl p
  rw [plainTurn, ends_peek_bind]
  cases h : p.sc.rest[0]? with
  | none => exact hend.mono fun _ _ h' => ⟨h', fun _ hc => by cases hc⟩
  | some ch =>
      have hpos := size_pos h
      have hle := Nat.le_succ p.size
      have hstop (hno : ¬ Opens inFlow ch) :
          Ends (Allowed strict) (plainEnd host tag pl) p fun t p' =>
          (Fwd p p' ∧ ∀ b, t = .next b → p'.size < p.size) ∧
            ∀ c, some ch = some c → Opens inFlow c → p'.size < p.size :=
        hend.mono fun _ _ h' => ⟨h', fun c hc ho => by cases hc; exact absurd ho hno⟩
      have heats {x : Parse ν (Turn Plain (Value ν))} (hx : Eats strict x p) :
          Ends (Allowed strict) x p fun t p' =>
          (Fwd p p' ∧ ∀ b, t = .next b → p'.size < p.size) ∧
            ∀ c, some ch = some c → Opens inFlow c → p'.size < p.size :=
        Ends.mono hx fun _ _ h' => ⟨⟨h'.1, fun _ _ => h'.2⟩, fun _ _ _ => h'.2⟩
      dsimp only
      rw [ends_read_bind]
      split
      · next hc => exact hstop fun ho => Bool.false_ne_true (ho.1.symm.trans hc.2)
      · split
        · refine heats (eats_bind ((takes_plainBreak indent pl).eats p hle hpos) hle fun next => ?_)
          cases next with
          | none => exact moves_plainEnd host tag pl
          | some next => exact moves_pure _
        · split
          · next hc => exact hstop fun ho => ho.2.1 hc.1
          · rw [ends_peek_bind]
            split
            · next hc =>
                refine hstop fun ho => ?_
                rw [ho.2.2 hc.1] at hc
                cases hc.2.1
            · split
              · exact heats (eats_bind (eats_advance hpos) hle fun _ =>
                  moves_bind (moves_read _) fun _ => moves_ite (moves_plainEnd host tag pl)
                    (moves_bind (moves_read _) fun _ =>
                      moves_ite (moves_plainEnd host tag pl) (moves_pure _)))
              · exact heats (eats_bind (eats_advance hpos) hle fun _ => moves_pure _)

theorem steps_plain (indent : Nat) (inFlow : Bool) (tag : Option Text) (pl : Plain) :
    Steps strict k (plainTurn host indent inFlow tag pl) := fun p _ =>
  (ends_plainTurn host indent inFlow tag pl p).mono fun _ _ h => h.1

theorem moves_parsePlainScalar (indent : Nat) (inFlow : Bool) (tag : Option Text) :
    Moves strict k (parsePlainScalar host indent inFlow tag) :=
  moves_turns (steps_plain host indent inFlow tag) _

theorem eats_parsePlainScalar (indent : Nat) {inFlow : Bool} (tag : Option Text) {p : Parser ν}
    {ch : Char} (h : p.sc.rest[0]? = some ch) (hch : Opens inFlow ch) :
    Eats strict (parsePlainScalar host indent inFlow tag) p :=
  eats_turns (steps_plain host indent inFlow tag) (Nat.le_refl _)
    ((ends_plainTurn host indent inFlow tag _ p).mono fun _ _ h' => ⟨h'.1.1, h'.2 ch h hch⟩)

theorem moves_blockHeader (n : Nat) : ∀ (chomp : Chomp) (explicit : Option Nat),
    Moves strict k (blockHeader n chomp explicit : Parse ν (Chomp × Option Nat)) := by
  induction n with
  | zero => exact fun chomp explicit => moves_pure _
  | succ n ih =>
      intro chomp explicit
      refine moves_bind (moves_read _) fun ch => ?_
      cases ch with
      | none => exact moves_fault _
      | some ch =>
          exact moves_ite (moves_bind moves_advance fun _ => ih _ _)
            (moves_ite (moves_bind moves_advance fun _ => ih _ _)
              (moves_ite (moves_bind moves_advance fun _ => ih _ _) (moves_pure _)))

theorem eats_takeWhile {ok : Char → Bool} {p : Parser ν} {ch : Char}
    (h : p.sc.rest[0]? = some ch) (hok : ok ch = true) : Eats strict (takeWhile ok) p := by
  have hpos := size_pos h
  obtain ⟨⟨rest, line, col⟩, anchors, depth⟩ := p
  cases rest with
  | nil => cases h
  | cons c rest =>
      cases h
      unfold Eats
      rw [takeWhile, ends_read_bind]
      refine eats_bind (eats_skip ?_ hpos) (Nat.le_succ _) fun _ => moves_pure _
      rw [List.takeWhile_cons, if_pos hok]
      exact Nat.succ_pos _

theorem eats_skipBlankLine {n : Nat} {p : Parser ν} (h : p.sc.rest[n]? = some '\n') :
    Eats strict (skipBlankLine n) p := by
  have hfwd := fwd_skip n p
  have hhead : ({ p with sc := p.sc.skip n } : Parser ν).sc.rest[0]? = some '\n' := by
    show (p.sc.skip n).rest[0]? = _
    rw [skip_rest, List.getElem?_drop, Nat.add_zero]
    exact h
  unfold Eats
  rw [skipBlankLine, ends_bind]
  show Ends (Allowed strict) consumeNewline _ _
  rw [consumeNewline, ends_peek_bind, if_pos hhead]
  exact Ends.mono (eats_advance (size_pos hhead)) fun _ _ h' =>
    ⟨hfwd.trans h'.1, Nat.lt_of_lt_of_le h'.2 hfwd.size_le⟩

theorem eats_takeLine {blockIndent : Nat} {p : Parser ν} {ch : Char}
    (h : p.sc.rest[0]? = some ch) (hch : ch ≠ '\n') : Eats strict (takeLine blockIndent) p := by
  have hend : ∀ text : Text,
      Moves strict p.size (consumeNewline >>= fun _ => pure text : Parse ν Text) :=
    fun _ => moves_bind moves_consumeNewline fun _ => moves_pure _
  cases blockIndent with
  | zero =>
      have htake : Eats strict (takeWhile fun c => c != '\n') p :=
        eats_takeWhile h (bne_iff_ne.mpr hch)
      have hline := eats_bind htake (Nat.le_succ _) hend
      exact hline
  | succ n =>
      exact eats_bind (eats_skip (Nat.succ_pos n) (size_pos h)) (Nat.le_succ _) fun _ =>
        moves_bind (moves_takeWhile _) hend

theorem head_of_pos {p : Parser ν} (h : 0 < p.size) : ∃ ch, p.sc.rest[0]? = some ch :=
  ⟨_, List.getElem?_eq_getElem h⟩

theorem size_pos_of_not_atEnd {p : Parser ν} (h : ¬ p.sc.rest.isEmpty = true) : 0 < p.size := by
  rw [Parser.size, List.length_pos_iff]
  exact fun hnil => h (by rw [hnil]; rfl)

theorem steps_blockLine (blockIndent : Nat) (lines : List Line) :
    Steps strict k (blockLineTurn blockIndent lines : Parse ν _) := by
  intro p hp
  have hle := Nat.le_succ_of_le hp
  rw [blockLineTurn, atEnd, ends_read_bind]
  split
  · exact ends_leave _
  · next hend =>
      obtain ⟨ch, hch⟩ := head_of_pos (size_pos_of_not_atEnd hend)
      rw [ends_read_bind, ends_peek_bind]
      split
      · next hbreak =>
          exact (eats_bind (eats_skipBlankLine hbreak) hle fun _ => moves_pure _).steps
      · next hbreak =>
          split
          · exact ends_leave _
          · refine (eats_bind (eats_takeLine hch ?_) hle fun _ => moves_pure _).steps
            rintro rfl
            apply hbreak
            obtain ⟨⟨rest, line, col⟩, anchors, depth⟩ := p
            cases rest with
            | nil => cases hch
            | cons c rest =>
                cases hch
                rfl

theorem takes_parseBlockScalar (indent : Nat) (literal : Bool) (tag : Option Text) :
    Takes strict k (parseBlockScalar host indent literal tag) := by
  refine takes_bind takes_advance fun _ => moves_bind (moves_blockHeader _ _ _) fun header => ?_
  refine moves_bind moves_skipInlineWs fun _ => moves_bind moves_consumeNewline fun _ => ?_
  refine moves_bind (moves_read _) fun _ => moves_bind (moves_turns (steps_blockLine _) _)
    fun _ => moves_bind (moves_lift _) fun _ => ?_
  cases tag with
  | none => exact moves_pure _
  | some tag => exact moves_lift _

end

end Zuri.Yaml
