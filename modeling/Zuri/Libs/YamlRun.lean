import Zuri.Libs.YamlCollections

/-!
Nodes, documents and streams, where brackets stop a strict parser. A node inside a flow collection
takes a character unless it stands before what ends an item; so with more fuel than there are
characters every run ends.
-/

namespace Zuri.Yaml

open Fuelled

variable {ν : Type} {strict : Bool}

section
variable (host : Host ν) {node : Nat → Bool → Parse ν (Value ν)} {k fuel : Nat}
  (hnode : NodeSpec k node) (hfuel : k < fuel)

theorem Eats.moved {α : Type} {x : Parse ν α} {p : Parser ν} (h : Eats strict x p) :
    Ends (Allowed strict) x p fun _ p' => Fwd p p' :=
  Ends.mono h fun _ _ h' => h'.1

include hnode hfuel

theorem moves_dispatch (indent : Nat) (inFlow : Bool) (tag : Option Text) :
    Moves true (k + 1) (dispatch host node true fuel indent inFlow tag) := by
  intro p hp
  rw [dispatch, ends_peek_bind, ends_peek_bind]
  split
  · next h => exact (eats_parseFlowSequence hnode hfuel p hp (size_pos h)).moved
  · split
    · next h => exact (eats_parseFlowMapping host hnode hfuel p hp (size_pos h)).moved
    · split
      · next h => exact ((takes_parseBlockScalar host _ _ _).eats p hp (size_pos h)).moved
      · split
        · next h => exact ((takes_parseBlockScalar host _ _ _).eats p hp (size_pos h)).moved
        · split
          · exact moves_parseBlockSequence hnode.moves p hp
          · split
            · exact moves_parseBlockMapping host hnode.moves p hp
            · rw [couldBeBlockMapping, ends_read_bind]
              split
              · exact moves_parseBlockMapping host hnode.moves p hp
              · split
                · next h => exact ((takes_parseDoubleQuoted host _).eats p hp (size_pos h)).moved
                · split
                  · next h => exact ((takes_parseSingleQuoted host _).eats p hp (size_pos h)).moved
                  · exact moves_parsePlainScalar host _ _ _ p hp

theorem eats_dispatch (indent : Nat) (tag : Option Text) {p : Parser ν} (hp : p.size ≤ k + 1)
    (hdepth : 0 < p.flowDepth) {ch : Char} (h : p.sc.rest[0]? = some ch) (hs : Solid ch)
    (hend : isFlowEnd ch = false) : Eats true (dispatch host node true fuel indent true tag) p := by
  have hpos := size_pos h
  unfold Eats
  rw [dispatch, ends_peek_bind, ends_peek_bind]
  split
  · exact eats_parseFlowSequence hnode hfuel p hp hpos
  · split
    · exact eats_parseFlowMapping host hnode hfuel p hp hpos
    · split
      · exact (takes_parseBlockScalar host _ _ _).eats p hp hpos
      · split
        · exact (takes_parseBlockScalar host _ _ _).eats p hp hpos
        · split
          · next hc => exact eats_parseBlockSequence hnode.moves hp hc.1 hc.2.2
          · split
            · next hc => exact eats_parseBlockMapping host hnode.moves hp hc.1
            · rw [couldBeBlockMapping, ends_read_bind, beq_eq_false_iff_ne.mpr (by omega),
                Bool.false_and, if_neg Bool.false_ne_true]
              split
              · exact (takes_parseDoubleQuoted host _).eats p hp hpos
              · split
                · exact (takes_parseSingleQuoted host _).eats p hp hpos
                · exact eats_parsePlainScalar host _ _ h ⟨hend, hs.2.2, fun _ => rfl⟩

theorem moves_parseValue (indent : Nat) (inFlow : Bool) (tag : Option Text) :
    Moves true (k + 1) (parseValue host node true fuel indent inFlow tag) := by
  have hdispatch := moves_dispatch host hnode hfuel indent inFlow tag
  exact moves_bind moves_skipSpaces fun _ => moves_bind (moves_read _) fun _ =>
    moves_bind (moves_read _) fun _ => moves_ite
      (moves_bind moves_consumeNewline fun _ => moves_bind moves_skipWsAndComments fun _ =>
        moves_bind (moves_read _) fun _ => moves_ite (moves_pure _)
          (moves_bind moves_skipSpaces fun _ => hdispatch))
      hdispatch

theorem eats_parseValue (indent : Nat) (tag : Option Text) {p : Parser ν} (hp : p.size ≤ k + 1)
    (hdepth : 0 < p.flowDepth) {ch : Char} (h : p.sc.rest[0]? = some ch) (hs : Solid ch)
    (hend : isFlowEnd ch = false) :
    Eats true (parseValue host node true fuel indent true tag) p := by
  unfold Eats
  rw [parseValue, ends_skipSpaces_solid h hs.1, ends_peek_bind, ends_peek_bind, if_neg]
  · exact eats_dispatch host hnode hfuel indent tag hp hdepth h hs hend
  · rw [h]
    rintro (heq | heq)
    · exact hs.2.1 (Option.some.inj heq)
    · cases heq

omit hnode hfuel in
theorem steps_props (n : Nat) (props : Props) : Steps strict n (propsTurn props : Parse ν _) := by
  refine steps_bind moves_skipSpaces fun _ p hp => ?_
  have hle := Nat.le_succ_of_le hp
  rw [ends_peek_bind]
  split
  · next h =>
      exact (eats_bind (takes_parseAnchor.eats p hle (size_pos h)) hle fun _ =>
        moves_bind moves_skipSpaces fun _ => moves_pure _).steps
  · split
    · next h =>
        exact (eats_bind (takes_parseTag.eats p hle (size_pos h)) hle fun _ =>
          moves_bind moves_skipSpaces fun _ => moves_pure _).steps
    · exact ends_leave _

omit hnode hfuel in
theorem moves_setAnchor {n : Nat} (anchor : Option Text) (val : Value ν) :
    Moves strict n (setAnchor anchor val) := by
  cases anchor with
  | none => exact moves_pure _
  | some name => exact fun p _ => ⟨List.suffix_refl _, rfl⟩

theorem moves_nodeRest (indent : Nat) (inFlow : Bool) (props : Props) : Moves true (k + 1) (do
    let val ← nodeValue host node true fuel indent inFlow props.tag
    setAnchor props.anchor val
    pure val) := by
  refine moves_bind (fun p hp => ?_) fun val => moves_bind (moves_setAnchor _ _) fun _ =>
    moves_pure _
  rw [nodeValue, ends_peek_bind]
  split
  · next h => exact (takes_parseAlias.eats p hp (size_pos h)).moved
  · exact moves_parseValue host hnode hfuel _ _ _ p hp

theorem moves_nodeBody (indent : Nat) (inFlow : Bool) :
    Moves true (k + 1) (nodeBody host node true fuel indent inFlow) :=
  moves_bind moves_skipWsAndComments fun _ => moves_bind (moves_read _) fun _ =>
    moves_ite (moves_pure _) (moves_bind (moves_turns (steps_props _) _) fun props =>
      moves_nodeRest host hnode hfuel indent inFlow props)

omit hnode hfuel in
theorem ends_props_none {p : Parser ν} {ch : Char} (h : p.sc.rest[0]? = some ch) (hs : Solid ch)
    (hch : ¬(ch = '&' ∨ ch = '!')) :
    Ends (Allowed strict) (turns Parser.size propsTurn {}) p fun props p' =>
      props = {} ∧ p' = p := by
  show Ends (Allowed strict) (loop propsTurn (p.size + 1) {}) p _
  rw [loop, ends_bind, propsTurn, ends_skipSpaces_solid h hs.1, ends_peek_bind, h,
    if_neg fun heq => hch (.inl (Option.some.inj heq)),
    if_neg fun heq => hch (.inr (Option.some.inj heq))]
  exact ⟨rfl, rfl⟩

omit hnode hfuel in
theorem eats_props {p : Parser ν} {ch : Char} (h : p.sc.rest[0]? = some ch) (hs : Solid ch)
    (hch : ch = '&' ∨ ch = '!') : Eats strict (turns Parser.size propsTurn {}) p := by
  have hpos := size_pos h
  have hle := Nat.le_succ p.size
  refine eats_turns (steps_props p.size) (Nat.le_refl _) ?_
  unfold Eats
  rw [propsTurn, ends_skipSpaces_solid h hs.1, ends_peek_bind]
  split
  · exact eats_bind (takes_parseAnchor.eats p hle hpos) hle fun _ =>
      moves_bind moves_skipSpaces fun _ => moves_pure _
  · next hamp =>
      rw [if_pos]
      · exact eats_bind (takes_parseTag.eats p hle hpos) hle fun _ =>
          moves_bind moves_skipSpaces fun _ => moves_pure _
      · obtain rfl | rfl := hch
        · exact absurd h hamp
        · exact h

theorem eats_nodeBody {p : Parser ν} (hp : p.size ≤ k + 1) (hdepth : 0 < p.flowDepth) {ch : Char}
    (h : p.sc.rest[0]? = some ch) (hend : isFlowEnd ch = false) :
    Eats true (nodeBody host node true fuel 0 true) p := by
  have hrest (props : Props) := moves_nodeRest host hnode hfuel 0 true props
  unfold Eats
  rw [nodeBody, ends_bind]
  apply (ends_skipWs p).mono
  rintro _ p' ⟨hf, hhead, hless | rfl⟩
  · exact (moves_bind (moves_read _) (fun _ => moves_ite (moves_pure _)
      (moves_bind (moves_turns (steps_props _) _) hrest)) p' (Nat.le_trans hf.size_le hp)).mono
        fun _ _ h' => ⟨hf.trans h', Nat.lt_of_le_of_lt h'.size_le hless⟩
  · have hs := hhead ch h
    rw [atEnd, ends_read_bind, if_neg (not_atEnd h)]
    by_cases hch : ch = '&' ∨ ch = '!'
    · exact eats_bind (eats_props h hs hch) hp fun props => (hrest props).le (Nat.le_succ k)
    · rw [ends_bind]
      apply (ends_props_none h hs hch).mono
      rintro _ _ ⟨rfl, rfl⟩
      refine eats_bind ?_ hp fun val => moves_bind (moves_setAnchor _ _) fun _ => moves_pure _
      unfold Eats
      rw [nodeValue, ends_peek_bind]
      split
      · exact takes_parseAlias.eats _ hp (size_pos h)
      · exact eats_parseValue host hnode hfuel 0 _ hp hdepth h hs hend

end

theorem parseNode_spec (host : Host ν) (fuel : Nat) :
    ∀ k, k + 2 ≤ fuel → NodeSpec k (parseNode host true fuel) := by
  induction fuel with
  | zero =>
      intro k hk
      omega
  | succ fuel ih =>
      intro k hk
      cases k with
      | zero =>
          refine ⟨fun indent inFlow p hp => ?_, fun p hp _ ch h _ => ?_⟩
          · rw [parseNode, nodeBody, ends_bind]
            apply (moves_skipWsAndComments p hp).mono
            intro _ p' h'
            have hnil : p'.sc.rest = [] := List.length_eq_zero_iff.mp
              (Nat.le_zero.mp (Nat.le_trans h'.size_le hp))
            rw [atEnd, ends_read_bind, hnil]
            exact h'
          · exact absurd (size_pos h) (by omega)
      | succ k =>
          have hnode := ih k (by omega)
          exact ⟨fun indent inFlow => moves_nodeBody host hnode (by omega) indent inFlow,
            fun p hp hdepth ch h hend => eats_nodeBody host hnode (by omega) hp hdepth h hend⟩

section
variable (host : Host ν) {k : Nat}

theorem moves_checkVersion (version : Text) : Moves strict k (checkVersion host version) :=
  moves_bind (moves_lift _) fun _ =>
    moves_ite (moves_ite (moves_pure _) (moves_error _)) (moves_error _)

theorem takes_parseDirective : Takes strict k (parseDirective host) :=
  takes_bind takes_advance fun _ => moves_bind (moves_takeWhile _) fun _ =>
    moves_bind moves_skipSpaces fun _ => moves_bind
      (moves_ite (moves_bind (moves_takeWhile _) fun _ => moves_checkVersion host _)
        (moves_pure _)) fun _ =>
      moves_bind (moves_skipWhile _) fun _ => moves_consumeNewline

theorem marked_head {p : Parser ν} {c : Char} (h : (p.sc.rest.take 3 == [c, c, c]) = true) :
    p.sc.rest[0]? = some c := by
  obtain ⟨⟨rest, line, col⟩, anchors, depth⟩ := p
  cases rest with
  | nil => cases h
  | cons c' rest => exact congrArg some (List.cons.inj (beq_iff_eq.mp h)).1

theorem eats_endMarker {p : Parser ν} {c : Char}
    (h : (p.sc.rest.take 3 == [c, c, c]) = true) : Eats strict (endMarker : Parse ν Unit) p :=
  eats_bind (eats_skip (Nat.succ_pos 2) (size_pos (marked_head h))) (Nat.le_succ p.size)
    fun _ => moves_bind moves_skipInlineWs fun _ => moves_consumeNewline

theorem steps_prefixTurn (u : Unit) : Steps strict k (prefixTurn host u) := by
  intro p hp
  rw [prefixTurn, atEnd, ends_read_bind]
  split
  · exact ends_leave _
  · refine steps_bind moves_skipSpaces (fun _ p hp => ?_) p hp
    have hle := Nat.le_succ_of_le hp
    rw [ends_peek_bind]
    split
    · next h =>
        exact (eats_bind ((takes_parseDirective host).eats p hle (size_pos h)) hle
          fun _ => moves_pure _).steps
    · rw [atMarker, ends_read_bind]
      split
      · next h => exact (eats_bind (eats_endMarker h) hle fun _ => moves_pure _).steps
      · split
        · next h =>
            exact (eats_bind (eats_advance (size_pos h)) hle fun _ => moves_pure _).steps
        · exact ends_leave _

theorem moves_skipDocumentPrefix : Moves strict k (skipDocumentPrefix host) :=
  moves_turns (steps_prefixTurn host) _

/-- A document marker is taken before a document. -/
theorem eats_skipDocumentPrefix {p : Parser ν}
    (h : (p.sc.rest.take 3 == ['-', '-', '-']) = true) :
    Eats strict (skipDocumentPrefix host) p := by
  have hhead := marked_head h
  refine eats_turns (steps_prefixTurn host) (Nat.le_refl p.size) ?_
  unfold Eats
  rw [prefixTurn, atEnd, ends_read_bind, if_neg (not_atEnd hhead),
    ends_skipSpaces_solid hhead rfl, ends_peek_bind, hhead, if_neg (by decide), atMarker,
    ends_read_bind, if_pos h]
  exact eats_bind (eats_endMarker h) (Nat.le_succ p.size) fun _ => moves_pure _

/-- The text is at its end, or at a document that starts. -/
def Closed (p : Parser ν) : Prop :=
  p.size = 0 ∨ (p.sc.rest.take 3 == ['-', '-', '-']) = true

theorem ends_suffixTurn (u : Unit) (p : Parser ν) :
    Ends (Allowed strict) (suffixTurn u) p fun t p' =>
    (Fwd p p' ∧ ∀ b, t = .next b → p'.size < p.size) ∧ (t = .done true → Closed p') := by
  rw [suffixTurn, atEnd, ends_read_bind]
  split
  · next hend =>
      refine ⟨⟨Fwd.refl p, fun _ hb => by cases hb⟩, fun _ => .inl ?_⟩
      rw [Parser.size, List.isEmpty_iff.mp hend]
      rfl
  · rw [ends_bind]
    apply (moves_skipSpaces p (Nat.le_refl _)).mono
    intro _ p' hf
    have hle := Nat.le_succ p'.size
    have hnext {x : Parse ν Unit} (hx : Eats strict x p') :
        Ends (Allowed strict) (x >>= fun _ => pure (.next ()) : Parse ν (Turn Unit Bool)) p'
          fun t p'' =>
          (Fwd p p'' ∧ ∀ b, t = .next b → p''.size < p.size) ∧
            (t = .done true → Closed p'') := by
      rw [ends_bind]
      exact Ends.mono hx fun _ p'' h' =>
        ⟨⟨hf.trans h'.1, fun _ _ => Nat.lt_of_lt_of_le h'.2 hf.size_le⟩, fun hd => by cases hd⟩
    rw [ends_peek_bind]
    split
    · next h => exact hnext (eats_advance (size_pos h))
    · rw [atMarker, ends_read_bind]
      split
      · next h => exact hnext (eats_endMarker h)
      · rw [atMarker, ends_read_bind]
        split
        · next h => exact ⟨⟨hf, fun _ hb => by cases hb⟩, fun _ => .inr h⟩
        · exact ⟨⟨hf, fun _ hb => by cases hb⟩, fun hd => by cases hd⟩

theorem steps_suffix (u : Unit) : Steps strict k (suffixTurn u : Parse ν _) := fun p _ =>
  (ends_suffixTurn u p).mono fun _ _ h => h.1

theorem ends_skipDocumentSuffix (p : Parser ν) :
    Ends (Allowed strict) skipDocumentSuffix p fun done p' =>
    Fwd p p' ∧ (done = true → Closed p') := by
  refine ends_loop Parser.size (fun _ p' => Fwd p p') ?_ (p.size + 1) () p (Fwd.refl p)
    (Nat.lt_succ_self p.size)
  intro u p' hf
  apply (ends_suffixTurn u p').mono
  intro t p'' ht
  cases t with
  | next b => exact ⟨hf.trans ht.1.1, ht.1.2 b rfl⟩
  | done c => exact ⟨hf.trans ht.1.1, fun hc => ht.2 (congrArg Turn.done hc)⟩

theorem eats_skipDocumentSuffix {p : Parser ν} (h : (p.sc.rest.take 3 == ['.', '.', '.']) = true) :
    Eats strict (skipDocumentSuffix : Parse ν Bool) p := by
  have hhead := marked_head h
  refine eats_turns steps_suffix (Nat.le_refl p.size) ?_
  unfold Eats
  rw [suffixTurn, atEnd, ends_read_bind, if_neg (not_atEnd hhead),
    ends_skipSpaces_solid hhead rfl, ends_peek_bind, hhead, if_neg (by decide), atMarker,
    ends_read_bind, if_pos h]
  exact eats_bind (eats_endMarker h) (Nat.le_succ p.size) fun _ => moves_pure _

theorem ends_checkSuffix (p : Parser ν) :
    Ends (Allowed strict) checkSuffix p fun _ p' => Fwd p p' ∧ Closed p' := by
  rw [checkSuffix, ends_bind]
  apply (ends_skipDocumentSuffix p).mono
  intro done p' h
  cases done with
  | true => exact ⟨h.1, h.2 rfl⟩
  | false => exact allowed_fault _

variable {fuel : Nat} (hk : k + 2 ≤ fuel)
include hk

theorem moves_parseDocument : Moves true k (parseDocument host true fuel) :=
  moves_bind moves_skipWsAndComments fun _ => moves_bind (moves_read _) fun _ =>
    moves_ite (moves_pure _) (moves_bind (moves_read _) fun _ => moves_bind (moves_read _) fun _ =>
      moves_ite (moves_pure _) ((parseNode_spec host fuel k hk).moves 0 false))

theorem moves_parseOne : Moves true k (parseOne host true fuel) :=
  moves_bind (moves_skipDocumentPrefix host) fun _ =>
    moves_bind (moves_parseDocument host hk) fun _ =>
      moves_bind (fun p _ => (ends_checkSuffix p).mono fun _ _ h => h.1) fun _ => moves_pure _

/-- A turn over a stream takes a character: a document that took none would end at a marker,
which was there before the prefix, and the prefix takes markers. -/
theorem steps_stream (docs : List (Value ν)) : Steps true k (streamTurn host true fuel docs) := by
  intro p hp
  rw [streamTurn, atEnd, ends_read_bind]
  split
  · exact ends_leave _
  · next hend =>
      have hpos := size_pos_of_not_atEnd hend
      have hprefix : Ends (Allowed true) (skipDocumentPrefix host) p fun _ p' => Fwd p p' ∧
          ((p.sc.rest.take 3 == ['-', '-', '-']) = true → p'.size < p.size) := by
        by_cases hmark : (p.sc.rest.take 3 == ['-', '-', '-']) = true
        · exact Ends.mono (eats_skipDocumentPrefix host hmark) fun _ _ h => ⟨h.1, fun _ => h.2⟩
        · exact (moves_skipDocumentPrefix host p hp).mono fun _ _ h =>
            ⟨h, fun hm => absurd hm hmark⟩
      rw [ends_bind]
      apply hprefix.mono
      rintro _ p₁ ⟨hf₁, hmark₁⟩
      rw [ends_read_bind]
      split
      · exact ⟨hf₁, fun _ hb => by cases hb⟩
      · rw [ends_bind]
        apply (moves_skipWsAndComments p₁ (Nat.le_trans hf₁.size_le hp)).mono
        intro _ p₂ hf₂
        have hf := hf₁.trans hf₂
        rw [ends_read_bind]
        split
        · exact ⟨hf, fun _ hb => by cases hb⟩
        · rw [atMarker, ends_read_bind]
          split
          · next hdots =>
              rw [ends_bind]
              exact Ends.mono (eats_skipDocumentSuffix hdots) fun _ _ h =>
                ⟨hf.trans h.1, fun _ _ => Nat.lt_of_lt_of_le h.2 hf.size_le⟩
          · rw [ends_bind]
            apply (moves_parseDocument host hk p₂ (Nat.le_trans hf.size_le hp)).mono
            intro doc p₃ hf₃
            rw [ends_bind]
            apply (ends_checkSuffix p₃).mono
            rintro _ p₄ ⟨hf₄, hclosed⟩
            have hall := hf.trans (hf₃.trans hf₄)
            refine ⟨hall, fun _ _ => Nat.lt_of_le_of_ne hall.size_le fun heq => ?_⟩
            obtain hzero | hmarker := hclosed
            · omega
            · rw [hall.rest.eq_of_length heq] at hmarker
              have h₁ := hmark₁ hmarker
              have h₂ := (hf₂.trans (hf₃.trans hf₄)).size_le
              omega

theorem moves_parseStream : Moves true k (parseStream host true fuel) :=
  moves_turns (steps_stream host hk) _

end

end Zuri.Yaml
