import Zuri.Libs.YamlMoves

/-!
Block and flow collections. A turn over a block collection takes a character, as it begins before
a dash or a key; a turn over a flow collection does unless it begins before a bracket that closes
another, where a strict parser stops.
-/

namespace Zuri.Yaml

open Fuelled

variable {ν : Type} {strict : Bool}

/-- What stands first after blanks and comments are skipped. -/
def Solid (ch : Char) : Prop := isWs ch = false ∧ ch ≠ '\n' ∧ ch ≠ '#'

theorem blanksLength_head (s : Text) : ∀ (comment : Bool) (ch : Char),
    (s.drop (blanksLength comment s))[0]? = some ch → Solid ch := by
  induction s with
  | nil =>
      intro comment ch h
      cases h
  | cons c s ih =>
      intro comment ch h
      rw [blanksLength] at h
      split at h
      · exact ih true ch h
      · split at h
        · exact ih false ch h
        · split at h
          · exact ih true ch h
          · next hcomment hblank hhash =>
              rw [Bool.or_eq_true, beq_iff_eq, not_or, Bool.not_eq_true] at hblank
              cases h
              exact ⟨hblank.1, hblank.2, fun heq => hhash (beq_iff_eq.mpr heq)⟩

theorem blanksLength_solid {ch : Char} {s : Text} (h : s[0]? = some ch) (hs : Solid ch) :
    blanksLength false s = 0 := by
  cases s with
  | nil => rfl
  | cons c s =>
      cases h
      rw [blanksLength, if_neg (by simp), if_neg, if_neg]
      · exact fun hc => hs.2.2 (beq_iff_eq.mp hc)
      · rw [hs.1, Bool.false_or]
        exact fun hc => hs.2.1 (beq_iff_eq.mp hc)

theorem takeWhile_solid {ch : Char} {s : Text} (h : s[0]? = some ch) (hs : isWs ch = false) :
    s.takeWhile isWs = [] := by
  cases s with
  | nil => rfl
  | cons c s =>
      cases h
      rw [List.takeWhile_cons, hs]
      rfl

section
variable {α : Type} {p : Parser ν} {post : α → Parser ν → Prop} {f : Unit → Parse ν α} {ch : Char}

theorem ends_skipWs (p : Parser ν) : Ends (Allowed strict) skipWsAndComments p fun _ p' =>
    Fwd p p' ∧ (∀ ch, p'.sc.rest[0]? = some ch → Solid ch) ∧ (p'.size < p.size ∨ p' = p) := by
  rw [skipWsAndComments, ends_read_bind]
  refine ⟨fwd_skip _ p, fun ch h => ?_, ?_⟩
  · change (p.sc.skip _).rest[0]? = some ch at h
    rw [skip_rest] at h
    exact blanksLength_head p.sc.rest false ch h
  · cases hn : blanksLength false p.sc.rest with
    | zero => exact .inr rfl
    | succ n =>
        suffices hpos : 0 < p.size by
          have heats : Eats strict (skip (n + 1)) p := eats_skip (Nat.succ_pos n) hpos
          exact .inl heats.2
        rw [Parser.size, List.length_pos_iff]
        intro hnil
        rw [hnil] at hn
        cases hn

theorem ends_skipWs_solid (h : p.sc.rest[0]? = some ch) (hs : Solid ch) :
    Ends (Allowed strict) (skipWsAndComments >>= f) p post ↔
      Ends (Allowed strict) (f ()) p post := by
  rw [skipWsAndComments, ends_bind, ends_read_bind, blanksLength_solid h hs]
  exact Iff.rfl

theorem ends_skipSpaces_solid (h : p.sc.rest[0]? = some ch) (hs : isWs ch = false) :
    Ends (Allowed strict) (skipSpaces >>= f) p post ↔ Ends (Allowed strict) (f ()) p post := by
  rw [skipSpaces, skipWhile, takeWhile, ends_bind, ends_bind, ends_bind, ends_read,
    takeWhile_solid h hs]
  exact Iff.rfl

end

theorem not_atEnd {p : Parser ν} {ch : Char} (h : p.sc.rest[0]? = some ch) :
    ¬ p.sc.rest.isEmpty = true := by
  intro hnil
  rw [List.isEmpty_iff.mp hnil] at h
  cases h

section
variable {node : Nat → Bool → Parse ν (Value ν)} {k : Nat}
  (hnode : ∀ indent inFlow, Moves strict k (node indent inFlow))
include hnode

theorem moves_sequenceItem (seqIndent : Nat) : Moves strict k (sequenceItem node seqIndent) :=
  moves_bind (moves_read _) fun _ => moves_bind (moves_read _) fun _ => moves_ite
    (moves_bind moves_consumeNewline fun _ => moves_bind moves_skipWsAndComments fun _ =>
      moves_bind (moves_read _) fun _ => moves_ite (moves_pure _)
        (moves_bind (moves_read _) fun _ => moves_ite (hnode _ _) (moves_pure _)))
    (moves_bind moves_skipSpaces fun _ => moves_bind (moves_read _) fun _ =>
      moves_bind (moves_read _) fun _ => moves_ite (moves_pure _) (hnode _ _))

theorem takes_sequenceEntry (seqIndent : Nat) (items : List (Value ν)) :
    Takes strict k (sequenceEntry node seqIndent items) :=
  takes_bind takes_advance fun _ => moves_bind (moves_sequenceItem hnode _) fun _ =>
    moves_bind moves_skipInlineWs fun _ => moves_bind moves_consumeNewline fun _ => moves_pure _

theorem steps_blockSequence (seqIndent : Nat) (items : List (Value ν)) :
    Steps strict (k + 1) (blockSequenceTurn node seqIndent items) := by
  refine steps_bind moves_skipWsAndComments fun _ p hp => ?_
  rw [atEnd, ends_read_bind]
  split
  · exact ends_leave _
  · next hend =>
      rw [column, ends_read_bind]
      split
      · exact ends_leave _
      · rw [ends_peek_bind]
        split
        · exact ends_leave _
        · rw [ends_peek_bind]
          split
          · exact ends_leave _
          · exact ((takes_sequenceEntry hnode _ _).eats p hp (size_pos_of_not_atEnd hend)).steps

theorem moves_parseBlockSequence : Moves strict (k + 1) (parseBlockSequence node) :=
  moves_bind (moves_read _) fun _ => moves_turns (steps_blockSequence hnode _) _

theorem eats_parseBlockSequence {p : Parser ν} (hp : p.size ≤ k + 1)
    (h : p.sc.rest[0]? = some '-') (hnext : endsKey p.sc.rest[1]? = true) :
    Eats strict (parseBlockSequence node) p := by
  unfold Eats
  rw [parseBlockSequence, column, ends_read_bind]
  refine eats_turns (steps_blockSequence hnode _) hp ?_
  unfold Eats
  rw [blockSequenceTurn, ends_skipWs_solid h ⟨rfl, by decide, by decide⟩, atEnd, ends_read_bind,
    if_neg (not_atEnd h), column, ends_read_bind, if_neg (fun hne => hne rfl), ends_peek_bind,
    if_neg (fun hne => hne h), ends_peek_bind, if_neg (by rw [hnext]; decide)]
  exact (takes_sequenceEntry hnode _ _).eats p hp (size_pos h)

end

section
variable (host : Host ν)

theorem eats_takeCount {n : Nat} {p : Parser ν} (hn : 0 < n) (hpos : 0 < p.size) :
    Eats strict (takeCount n) p := by
  unfold Eats
  rw [takeCount, ends_read_bind]
  exact eats_bind (eats_skip hn hpos) (Nat.le_succ _) fun _ => moves_pure _

theorem keyLength_zero {ch : Char} {s : Text} (h : s[0]? = some ch) (hbreak : ch ≠ '\n')
    (hlen : keyLength s = 0) : ch = ':' := by
  cases s with
  | nil => cases h
  | cons c s =>
      cases h
      rw [keyLength] at hlen
      split at hlen
      · next hc => exact hc.1
      · cases hlen

/-- What a key that is read leaves: less text, or the colon it stopped before. -/
def Keyed (p p' : Parser ν) : Prop :=
  Fwd p p' ∧ (p'.size < p.size ∨ p'.sc.rest[0]? = some ':')

theorem Eats.keyed {α : Type} {x : Parse ν α} {p : Parser ν} (h : Eats strict x p) :
    Ends (Allowed strict) x p fun _ p' => Keyed p p' :=
  Ends.mono h fun _ _ h' => ⟨h'.1, .inl h'.2⟩

theorem ends_parseBlockMappingKey {p : Parser ν} {ch : Char} (h : p.sc.rest[0]? = some ch)
    (hs : Solid ch) :
    Ends (Allowed strict) (parseBlockMappingKey host) p fun _ p' => Keyed p p' := by
  have hpos := size_pos h
  have hle := Nat.le_succ p.size
  rw [parseBlockMappingKey, ends_skipSpaces_solid h hs.1, ends_peek_bind]
  split
  · exact ((takes_parseDoubleQuoted host none).eats p hle hpos).keyed
  · split
    · exact ((takes_parseSingleQuoted host none).eats p hle hpos).keyed
    · split
      · exact (takes_parseAlias.eats p hle hpos).keyed
      · rw [ends_read_bind]
        cases hn : keyLength p.sc.rest with
        | zero =>
            refine ⟨Fwd.refl p, .inr ?_⟩
            rw [← keyLength_zero h hs.2.1 hn]
            exact h
        | succ n =>
            exact (eats_bind (eats_takeCount (Nat.succ_pos n) hpos) hle fun _ => moves_pure _).keyed

end

section
variable (host : Host ν) {node : Nat → Bool → Parse ν (Value ν)} {k : Nat}
  (hnode : ∀ indent inFlow, Moves strict k (node indent inFlow))
include hnode

theorem ends_mappingKey (mapIndent : Nat) {p : Parser ν} (hp : p.size ≤ k + 1) {ch : Char}
    (h : p.sc.rest[0]? = some ch) (hs : Solid ch) :
    Ends (Allowed strict) (mappingKey host node mapIndent) p fun _ p' => Keyed p p' := by
  rw [mappingKey, atComplexKey, ends_read_bind]
  split
  · exact (eats_bind (eats_advance (size_pos h)) hp fun _ => moves_bind moves_skipSpaces fun _ =>
      moves_bind moves_skipBreak fun _ => moves_bind (hnode _ _) fun _ =>
        moves_bind moves_skipWsAndComments fun _ => moves_bind moves_skipKeyColon fun _ =>
          moves_pure _).keyed
  · exact ends_parseBlockMappingKey host h hs

theorem eats_keyAndColon (mapIndent : Nat) {p : Parser ν} (hp : p.size ≤ k + 1) {ch : Char}
    (h : p.sc.rest[0]? = some ch) (hs : Solid ch) :
    Eats strict (keyAndColon host node mapIndent) p := by
  unfold Eats
  rw [keyAndColon, ends_bind]
  apply (ends_mappingKey host hnode mapIndent hp h hs).mono
  intro key p' hkey
  obtain hless | hcolon := hkey.2
  · have hmoves : Moves strict p'.size
        (skipSpaces >>= fun _ => skipColon >>= fun _ => pure key : Parse ν (Value ν)) :=
      moves_bind moves_skipSpaces fun _ => moves_bind moves_skipColon fun _ => moves_pure _
    exact (hmoves p' (Nat.le_refl _)).mono fun _ _ h' =>
      ⟨hkey.1.trans h', Nat.lt_of_le_of_lt h'.size_le hless⟩
  · rw [ends_skipSpaces_solid hcolon rfl, ends_bind, skipColon, ends_peek_bind, if_pos hcolon]
    exact Ends.mono (eats_advance (size_pos hcolon)) fun _ _ h' =>
      ⟨hkey.1.trans h'.1, Nat.lt_of_lt_of_le h'.2 hkey.1.size_le⟩

theorem moves_mappingValue (mapIndent : Nat) : Moves strict k (mappingValue node mapIndent) :=
  moves_bind (moves_read _) fun _ => moves_bind (moves_read _) fun _ => moves_ite
    (moves_bind moves_consumeNewline fun _ => moves_bind moves_skipWsAndComments fun _ =>
      moves_bind (moves_read _) fun _ => moves_ite (hnode _ _) (moves_pure _))
    (moves_bind (hnode _ _) fun _ => moves_bind moves_skipInlineWs fun _ =>
      moves_bind moves_consumeNewline fun _ => moves_pure _)

theorem eats_mappingEntry (mapIndent : Nat) (map : Entries ν) {p : Parser ν}
    (hp : p.size ≤ k + 1) {ch : Char} (h : p.sc.rest[0]? = some ch) (hs : Solid ch) :
    Eats strict (mappingEntry host node mapIndent map) p :=
  eats_bind (eats_keyAndColon host hnode mapIndent hp h hs) hp fun _ =>
    moves_bind moves_skipSpaces fun _ => moves_bind (moves_mappingValue hnode _) fun _ =>
      moves_pure _

theorem steps_blockMapping (mapIndent : Nat) (map : Entries ν) :
    Steps strict (k + 1) (blockMappingTurn host node mapIndent map) := by
  intro p hp
  rw [blockMappingTurn, ends_bind]
  apply (ends_skipWs p).mono
  rintro _ p' ⟨hf, hhead, _⟩
  have hp' := Nat.le_trans hf.size_le hp
  refine Ends.mono ?_ fun t p'' (h : Fwd p' p'' ∧ ∀ b, t = .next b → p''.size < p'.size) =>
    ⟨hf.trans h.1, fun b hb => Nat.lt_of_lt_of_le (h.2 b hb) hf.size_le⟩
  rw [atEnd, ends_read_bind]
  split
  · exact ends_leave _
  · next hend =>
      obtain ⟨ch, hch⟩ := head_of_pos (size_pos_of_not_atEnd hend)
      rw [column, ends_read_bind]
      split
      · exact ends_leave _
      · rw [atMarker, ends_read_bind, atMarker, ends_read_bind]
        split
        · exact ends_leave _
        · exact (eats_mappingEntry host hnode _ _ hp' hch (hhead ch hch)).steps

theorem moves_parseBlockMapping : Moves strict (k + 1) (parseBlockMapping host node) :=
  moves_bind (moves_read _) fun _ => moves_turns (steps_blockMapping host hnode _) _

theorem eats_parseBlockMapping {p : Parser ν} (hp : p.size ≤ k + 1)
    (h : p.sc.rest[0]? = some '?') : Eats strict (parseBlockMapping host node) p := by
  have hsolid : Solid '?' := ⟨rfl, by decide, by decide⟩
  have hmark (c : Char) (hc : c ≠ '?') : (p.sc.rest.take 3 == [c, c, c]) = false := by
    obtain ⟨⟨rest, line, col⟩, anchors, depth⟩ := p
    cases rest with
    | nil => rfl
    | cons c' rest =>
        cases h
        rw [beq_eq_false_iff_ne]
        intro heq
        exact hc (List.cons.inj heq).1.symm
  unfold Eats
  rw [parseBlockMapping, column, ends_read_bind]
  refine eats_turns (steps_blockMapping host hnode _) hp ?_
  unfold Eats
  rw [blockMappingTurn, ends_skipWs_solid h hsolid, atEnd, ends_read_bind,
    if_neg (not_atEnd h), column, ends_read_bind, if_neg (fun hne => hne rfl), atMarker,
    ends_read_bind, atMarker, ends_read_bind, hmark '-' (by decide), hmark '.' (by decide), if_neg]
  · exact eats_mappingEntry host hnode _ _ hp h hsolid
  · decide

end

/-- What a node parser does with so many characters left at most: it moves, and inside a flow
collection it takes a character unless it stands before a comma or a bracket that closes. -/
structure NodeSpec (k : Nat) (node : Nat → Bool → Parse ν (Value ν)) : Prop where
  moves : ∀ indent inFlow, Moves true k (node indent inFlow)
  eats : ∀ p : Parser ν, p.size ≤ k → 0 < p.flowDepth → ∀ ch, p.sc.rest[0]? = some ch →
    isFlowEnd ch = false → Eats true (node 0 true) p

theorem isFlowEnd_false {ch : Char} (h : ch ≠ ',' ∧ ch ≠ ']' ∧ ch ≠ '}') :
    isFlowEnd ch = false := by
  rw [isFlowEnd, beq_eq_false_iff_ne.mpr h.1, beq_eq_false_iff_ne.mpr h.2.1,
    beq_eq_false_iff_ne.mpr h.2.2]
  rfl

/-- A turn of a loop over a flow collection closes it, or takes a character. -/
def FlowTurn {α β : Type} (p : Parser ν) : Turn α β → Parser ν → Prop
  | .next _, p' => Fwd p p' ∧ p'.size < p.size
  | .done _, p' => p'.sc.rest <:+ p.sc.rest ∧ p'.flowDepth = p.flowDepth - 1

section
variable {α β : Type} {p : Parser ν}

theorem Eats.flowTurn {x : Parse ν α} (h : Eats strict x p) (f : α → β) :
    Ends (Allowed strict) (x >>= fun a => pure (.next (f a)) : Parse ν (Turn β (Value ν))) p
      (FlowTurn p) := by
  rw [ends_bind]
  exact Ends.mono h fun _ _ h' => h'

theorem ends_closeFlow (val : Value ν) :
    Ends (Allowed strict) (closeFlow >>= fun _ => pure (.done val) : Parse ν (Turn β (Value ν))) p
      (FlowTurn p) :=
  ⟨(fwd_skip 1 p).rest, rfl⟩

theorem eats_skipComma (h : p.sc.rest[0]? = some ',') :
    Eats strict (skipComma : Parse ν Unit) p := by
  unfold Eats
  rw [skipComma, ends_peek_bind, if_pos h]
  exact eats_bind (eats_advance (size_pos h)) (Nat.le_succ _) fun _ => moves_skipWsAndComments

theorem ends_openFlow (hpos : 0 < p.size) : Ends (Allowed strict) openFlow p fun _ p' =>
    p'.sc.rest <:+ p.sc.rest ∧ p'.size < p.size ∧ p'.flowDepth = p.flowDepth + 1 := by
  rw [openFlow, ends_bind]
  apply Ends.mono (eats_advance hpos)
  intro _ p' h
  rw [ends_bind, ends_update]
  apply (ends_skipWs _).mono
  intro _ p'' h'
  exact ⟨h'.1.rest.trans h.1.rest, Nat.lt_of_le_of_lt h'.1.size_le h.2,
    h'.1.depth.trans (congrArg (· + 1) h.1.depth)⟩

/-- A flow collection is closed as deep as it was opened. -/
theorem eats_flow {k fuel : Nat} (hfuel : k < fuel) {turn : α → Parse ν (Turn α (Value ν))}
    (hturn : ∀ (b : α) (p : Parser ν), p.size ≤ k → 0 < p.flowDepth →
      Ends (Allowed strict) (turn b) p (FlowTurn p)) (b : α) :
    ∀ p : Parser ν, p.size ≤ k + 1 → 0 < p.size →
      Eats strict (openFlow >>= fun _ => loop turn fuel b) p := by
  intro p hp hpos
  unfold Eats
  rw [ends_bind]
  apply (ends_openFlow hpos).mono
  rintro _ p₁ ⟨hrest, hless, hdepth⟩
  have hp₁ : p₁.size ≤ k := by omega
  suffices hclosed : Ends (Allowed strict) (loop turn fuel b) p₁ fun _ p' =>
      p'.sc.rest <:+ p₁.sc.rest ∧ p'.flowDepth = p.flowDepth from
    hclosed.mono fun _ p' h =>
      ⟨⟨h.1.trans hrest, h.2⟩, Nat.lt_of_le_of_lt h.1.length_le hless⟩
  refine ends_loop Parser.size (fun _ p' => Fwd p₁ p') ?_ fuel b p₁ (Fwd.refl p₁) (by omega)
  intro b p' hf
  have hturn' := hturn b p' (Nat.le_trans hf.size_le hp₁) (by have := hf.depth; omega)
  apply hturn'.mono
  intro t p'' ht
  cases t with
  | next b' => exact ⟨hf.trans ht.1, ht.2⟩
  | done val => exact ⟨ht.1.trans hf.rest, by have := ht.2; have := hf.depth; omega⟩

end

section
variable (host : Host ν) {node : Nat → Bool → Parse ν (Value ν)} {k fuel : Nat}
  (hnode : NodeSpec k node)
include hnode

theorem ends_flowSequenceTurn (items : List (Value ν)) (p : Parser ν) (hp : p.size ≤ k)
    (hdepth : 0 < p.flowDepth) :
    Ends (Allowed true) (flowSequenceTurn node true items) p (FlowTurn p) := by
  rw [flowSequenceTurn, ends_peek_bind]
  cases h : p.sc.rest[0]? with
  | none => exact ends_error _ _ _
  | some ch =>
      dsimp only
      split
      · exact ends_closeFlow _
      · next hclose =>
          split
          · next hcomma =>
              rw [hcomma] at h
              exact (eats_skipComma h).flowTurn _
          · next hcomma =>
              split
              · exact fun _ => rfl
              · next hbrace =>
                  have hch : isFlowEnd ch = false :=
                    isFlowEnd_false ⟨hcomma, hclose, fun heq => hbrace ⟨rfl, heq⟩⟩
                  exact (eats_bind (hnode.eats p hp hdepth ch h hch) (Nat.le_succ_of_le hp)
                    fun _ => moves_bind moves_skipWsAndComments fun _ =>
                      moves_bind moves_skipComma fun _ => moves_pure _ :
                    Eats true (flowItem node) p).flowTurn _

theorem eats_parseFlowSequence (hfuel : k < fuel) (p : Parser ν) (hp : p.size ≤ k + 1)
    (hpos : 0 < p.size) : Eats true (parseFlowSequence node true fuel) p :=
  eats_flow hfuel (fun items p hp hd => ends_flowSequenceTurn hnode items p hp hd) _ p hp hpos

omit hnode in
/-- A key before a colon or a line break is empty. -/
theorem ends_parseFlowKey {p : Parser ν} {ch : Char} (h : p.sc.rest[0]? = some ch)
    (hch : isFlowEnd ch = false) : Ends (Allowed strict) (parseFlowKey host) p fun _ p' =>
      Fwd p p' ∧ (p'.size < p.size ∨ p' = p ∧ (ch = ':' ∨ ch = '\n')) := by
  have hpos := size_pos h
  have hle := Nat.le_succ p.size
  rw [parseFlowKey, ends_peek_bind]
  split
  · exact Ends.mono ((takes_parseDoubleQuoted host none).eats p hle hpos)
      fun _ _ h' => ⟨h'.1, .inl h'.2⟩
  · split
    · exact Ends.mono ((takes_parseSingleQuoted host none).eats p hle hpos)
        fun _ _ h' => ⟨h'.1, .inl h'.2⟩
    · by_cases hend : isFlowKeyEnd ch = true
      · have hempty : p.sc.rest.takeWhile (fun ch => !isFlowKeyEnd ch) = [] := by
          obtain ⟨⟨rest, line, col⟩, anchors, depth⟩ := p
          cases rest with
          | nil => cases h
          | cons c rest =>
              cases h
              rw [List.takeWhile_cons, hend]
              rfl
        rw [isFlowKeyEnd, hch, Bool.false_or, Bool.or_eq_true, beq_iff_eq, beq_iff_eq] at hend
        rw [takeWhile, ends_bind, ends_read_bind, hempty]
        have hkey : Ends (Allowed strict)
            (lift (resolveScalar host (trim [])) : Parse ν (Value ν)) p fun _ p' =>
            Fwd p p' ∧ (p'.size < p.size ∨ p' = p ∧ (ch = ':' ∨ ch = '\n')) :=
          ends_lift fun a _ => ⟨Fwd.refl p, .inr ⟨rfl, hend⟩⟩
        exact hkey
      · have htake : Eats strict (takeWhile fun ch => !isFlowKeyEnd ch) p :=
          eats_takeWhile h (by rw [Bool.not_eq_true] at hend; rw [hend]; rfl)
        exact Ends.mono (eats_bind htake hle fun _ => moves_lift _) fun _ _ h' => ⟨h'.1, .inl h'.2⟩

theorem moves_flowValue : Moves true k (flowValue node) :=
  moves_bind (moves_read _) fun _ => moves_ite
    (moves_bind moves_advance fun _ => moves_bind moves_skipWsAndComments fun _ =>
      hnode.moves _ _) (moves_pure _)

/-- The rest of an entry, where nothing of it was taken. -/
theorem eats_flowEntry {p : Parser ν} (hp : p.size ≤ k) {ch : Char}
    (h : p.sc.rest[0]? = some ch) (hch : isFlowEnd ch = false) :
    Eats true (flowEntry host node) p := by
  have hclose (entry : Value ν × Value ν) : Moves true k
      (skipWsAndComments >>= fun _ => skipComma >>= fun _ => pure entry : Parse ν _) :=
    moves_bind moves_skipWsAndComments fun _ => moves_bind moves_skipComma fun _ => moves_pure _
  have hvalue (key : Value ν) : Moves true k (flowValue node >>= fun val =>
      skipWsAndComments >>= fun _ => skipComma >>= fun _ => pure (key, val) : Parse ν _) :=
    moves_bind (moves_flowValue hnode) fun _ => hclose _
  unfold Eats
  rw [flowEntry, ends_bind]
  apply (ends_parseFlowKey host h hch).mono
  rintro key p' ⟨hf, hless | ⟨rfl, hstay⟩⟩
  · have hp' := Nat.le_trans hf.size_le hp
    exact (moves_bind moves_skipWsAndComments (fun _ => hvalue key) p' hp').mono
      fun _ _ h' => ⟨hf.trans h', Nat.lt_of_le_of_lt h'.size_le hless⟩
  · obtain rfl | rfl := hstay
    · rw [ends_skipWs_solid h ⟨rfl, by decide, by decide⟩, flowValue, ends_bind, ends_peek_bind,
        if_pos h]
      have heats : Eats true (advance >>= fun _ => skipWsAndComments >>= fun _ => node 0 true) p' :=
        eats_bind (eats_advance (size_pos h)) (Nat.le_succ_of_le hp) fun _ =>
          moves_bind moves_skipWsAndComments fun _ => hnode.moves _ _
      apply Ends.mono heats
      intro val p'' h'
      exact (hclose (key, val) p'' (Nat.le_trans h'.1.size_le hp)).mono fun _ _ h'' =>
        ⟨h'.1.trans h'', Nat.lt_of_le_of_lt h''.size_le h'.2⟩
    · have heats : Eats true (skipWsAndComments : Parse ν Unit) p' := by
        apply (ends_skipWs p').mono
        rintro _ p'' ⟨hf', hhead, hless | rfl⟩
        · exact ⟨hf', hless⟩
        · exact absurd rfl (hhead _ h).2.1
      exact eats_bind heats (Nat.le_succ_of_le hp) fun _ => hvalue key

theorem ends_flowMappingTurn (map : Entries ν) (p : Parser ν) (hp : p.size ≤ k) :
    Ends (Allowed true) (flowMappingTurn host node true map) p (FlowTurn p) := by
  rw [flowMappingTurn, ends_peek_bind]
  cases h : p.sc.rest[0]? with
  | none => exact ends_error _ _ _
  | some ch =>
      dsimp only
      split
      · exact ends_closeFlow _
      · next hclose =>
          split
          · next hcomma =>
              rw [hcomma] at h
              exact (eats_skipComma h).flowTurn _
          · next hcomma =>
              split
              · exact fun _ => rfl
              · next hbracket =>
                  have hch : isFlowEnd ch = false :=
                    isFlowEnd_false ⟨hcomma, fun heq => hbracket ⟨rfl, heq⟩, hclose⟩
                  exact (eats_flowEntry host hnode hp h hch).flowTurn _

theorem eats_parseFlowMapping (hfuel : k < fuel) (p : Parser ν) (hp : p.size ≤ k + 1)
    (hpos : 0 < p.size) : Eats true (parseFlowMapping host node true fuel) p :=
  eats_flow hfuel (fun map p hp _ => ends_flowMappingTurn host hnode map p hp) _ p hp hpos

end

end Zuri.Yaml
