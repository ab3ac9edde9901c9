import Zuri.Libs.YamlRun

/-!
What stops a flow collection before the bracket of another makes no other difference: where the
strict parser does not stop, the parser gives the same, and where it does, the parser never ends.
-/

namespace Zuri.Yaml

open Fuelled

variable {ν : Type}

def Ties {α : Type} (spare : Prop) (x y : Parse ν α) : Prop :=
  ∀ p, Tied spare Stop.misplaced (x p) (y p)

section
variable {α β γ : Type} {spare : Prop} {x y : Parse ν α} {f g : α → Parse ν β}

theorem ties_same (hx : ∀ {k : Nat}, Moves false k x) : Ties spare x x := fun p =>
  tied_refl (.inr (Ends.ne_error (hx p (Nat.le_refl _)) fun h => Bool.false_ne_true (h rfl)))

theorem ties_bind (hx : Ties spare x y) (hf : ∀ a, Ties spare (f a) (g a)) :
    Ties spare (x >>= f) (y >>= g) := fun p => tied_bind (hx p) hf

theorem ties_then (hx : ∀ {k : Nat}, Moves false k x) (hf : ∀ a, Ties spare (f a) (g a)) :
    Ties spare (x >>= f) (x >>= g) := ties_bind (ties_same hx) hf

theorem ties_pure (a : α) : Ties spare (pure a : Parse ν α) (pure a) := fun _ => tied_pure a

theorem ties_ite {c : Prop} [Decidable c] {x' y' : Parse ν α} (hx : Ties spare x y)
    (hx' : Ties spare x' y') : Ties spare (if c then x else x') (if c then y else y') := by
  split
  · exact hx
  · exact hx'

theorem ties_turns {turn turn' : β → Parse ν (Turn β γ)}
    (h : ∀ b, Ties spare (turn b) (turn' b)) (b : β) :
    Ties spare (turns Parser.size turn b) (turns Parser.size turn' b) := fun p =>
  tied_loop (fun _ _ => False) (fun _ _ h => h.elim) (fun b p _ => h b p) (p.size + 1)
    (.inl rfl) b p

end

section
variable (host : Host ν) {node node' : Nat → Bool → Parse ν (Value ν)} {spare : Prop}
  (hnode : ∀ indent inFlow, Ties spare (node indent inFlow) (node' indent inFlow))
include hnode

theorem ties_sequenceEntry (seqIndent : Nat) (items : List (Value ν)) :
    Ties spare (sequenceEntry node seqIndent items) (sequenceEntry node' seqIndent items) :=
  ties_then moves_advance fun _ => ties_bind
    (ties_then (moves_read _) fun _ => ties_then (moves_read _) fun _ => ties_ite
      (ties_then moves_consumeNewline fun _ => ties_then moves_skipWsAndComments fun _ =>
        ties_then (moves_read _) fun _ => ties_ite (ties_pure _)
          (ties_then (moves_read _) fun _ => ties_ite (hnode _ _) (ties_pure _)))
      (ties_then moves_skipSpaces fun _ => ties_then (moves_read _) fun _ =>
        ties_then (moves_read _) fun _ => ties_ite (ties_pure _) (hnode _ _)))
    fun _ => ties_then moves_skipInlineWs fun _ => ties_then moves_consumeNewline fun _ =>
      ties_pure _

theorem ties_parseBlockSequence : Ties spare (parseBlockSequence node) (parseBlockSequence node') :=
  ties_then (moves_read _) fun _ => ties_turns (fun _ =>
    ties_then moves_skipWsAndComments fun _ => ties_then (moves_read _) fun _ =>
      ties_ite (ties_pure _) (ties_then (moves_read _) fun _ =>
        ties_ite (ties_pure _) (ties_then (moves_read _) fun _ =>
          ties_ite (ties_pure _) (ties_then (moves_read _) fun _ =>
            ties_ite (ties_pure _) (ties_sequenceEntry hnode _ _))))) _

omit hnode in
theorem ties_parseBlockMappingKey (p : Parser ν) :
    Tied spare Stop.misplaced (parseBlockMappingKey host p) (parseBlockMappingKey host p) := by
  refine ties_then moves_skipSpaces (fun _ => ties_then (moves_read _) fun _ => ?_) p
  exact ties_ite (ties_same (takes_parseDoubleQuoted host none).moves)
    (ties_ite (ties_same (takes_parseSingleQuoted host none).moves)
      (ties_ite (ties_same takes_parseAlias.moves)
        (ties_then (moves_read _) fun _ => ties_then (moves_takeCount _) fun _ => ties_pure _)))

theorem ties_keyAndColon (mapIndent : Nat) :
    Ties spare (keyAndColon host node mapIndent) (keyAndColon host node' mapIndent) :=
  ties_bind
    (ties_then (moves_read _) fun _ => ties_ite
      (ties_then moves_advance fun _ => ties_then moves_skipSpaces fun _ =>
        ties_then moves_skipBreak fun _ => ties_bind (hnode _ _) fun _ =>
          ties_then moves_skipWsAndComments fun _ => ties_then moves_skipKeyColon fun _ =>
            ties_pure _)
      (ties_parseBlockMappingKey host))
    fun _ => ties_then moves_skipSpaces fun _ => ties_then moves_skipColon fun _ => ties_pure _

theorem ties_mappingEntry (mapIndent : Nat) (map : Entries ν) :
    Ties spare (mappingEntry host node mapIndent map) (mappingEntry host node' mapIndent map) :=
  ties_bind (ties_keyAndColon host hnode mapIndent) fun _ => ties_then moves_skipSpaces fun _ =>
    ties_bind
      (ties_then (moves_read _) fun _ => ties_then (moves_read _) fun _ => ties_ite
        (ties_then moves_consumeNewline fun _ => ties_then moves_skipWsAndComments fun _ =>
          ties_then (moves_read _) fun _ => ties_ite (hnode _ _) (ties_pure _))
        (ties_bind (hnode _ _) fun _ => ties_then moves_skipInlineWs fun _ =>
          ties_then moves_consumeNewline fun _ => ties_pure _))
      fun _ => ties_pure _

theorem ties_parseBlockMapping :
    Ties spare (parseBlockMapping host node) (parseBlockMapping host node') :=
  ties_then (moves_read _) fun _ => ties_turns (fun _ =>
    ties_then moves_skipWsAndComments fun _ => ties_then (moves_read _) fun _ =>
      ties_ite (ties_pure _) (ties_then (moves_read _) fun _ =>
        ties_ite (ties_pure _) (ties_then (moves_read _) fun _ =>
          ties_then (moves_read _) fun _ =>
            ties_ite (ties_pure _) (ties_mappingEntry host hnode _ _)))) _

theorem ties_flowItem : Ties spare (flowItem node) (flowItem node') :=
  ties_bind (hnode _ _) fun _ => ties_then moves_skipWsAndComments fun _ =>
    ties_then moves_skipComma fun _ => ties_pure _

omit hnode in
theorem moves_parseFlowKey {k : Nat} : Moves false k (parseFlowKey host) :=
  moves_bind (moves_read _) fun _ => moves_ite (takes_parseDoubleQuoted host none).moves
    (moves_ite (takes_parseSingleQuoted host none).moves
      (moves_bind (moves_takeWhile _) fun _ => moves_lift _))

theorem ties_flowEntry : Ties spare (flowEntry host node) (flowEntry host node') :=
  ties_then (moves_parseFlowKey host) fun _ => ties_then moves_skipWsAndComments fun _ =>
    ties_bind
      (ties_then (moves_read _) fun _ => ties_ite
        (ties_then moves_advance fun _ => ties_then moves_skipWsAndComments fun _ => hnode _ _)
        (ties_pure _))
      fun _ => ties_then moves_skipWsAndComments fun _ => ties_then moves_skipComma fun _ =>
        ties_pure _

omit hnode in
theorem ties_closeFlow {β : Type} (val : Value ν) :
    Ties spare (closeFlow >>= fun _ => pure (.done val) : Parse ν (Turn β (Value ν)))
      (closeFlow >>= fun _ => pure (.done val)) := fun _ => tied_refl (.inr nofun)

end

section
variable {α : Type} {p : Parser ν} {f : Unit → Parse ν α} {ch : Char}

theorem run_read {β : Type} (g : Parser ν → β) (f : β → Parse ν α) (p : Parser ν) :
    (read g >>= f) p = f (g p) p := rfl

theorem run_skipWs_solid (h : p.sc.rest[0]? = some ch) (hs : Solid ch) :
    (skipWsAndComments >>= f) p = f () p := by
  rw [bind_apply, skipWsAndComments, run_read, blanksLength_solid h hs]
  rfl

theorem run_skipSpaces_solid (h : p.sc.rest[0]? = some ch) (hs : isWs ch = false) :
    (skipSpaces >>= f) p = f () p := by
  rw [bind_apply, skipSpaces, skipWhile, takeWhile, bind_apply, run_read, takeWhile_solid h hs]
  rfl

/-- The brackets that close. -/
def Closes (ch : Char) : Prop := ch = ']' ∨ ch = '}'

theorem Closes.solid (h : Closes ch) : Solid ch := by
  obtain rfl | rfl := h
  · exact ⟨rfl, by decide, by decide⟩
  · exact ⟨rfl, by decide, by decide⟩

theorem Closes.ne (h : Closes ch) {c : Char} (hc : c ≠ ']' ∧ c ≠ '}') : some ch ≠ some c := by
  rintro heq
  cases heq
  exact h.elim hc.1 hc.2

theorem run_skipComma_closes (h : p.sc.rest[0]? = some ch) (hc : Closes ch) :
    (skipComma >>= f) p = f () p := by
  rw [bind_apply, skipComma, peek, run_read, h, if_neg (hc.ne (by decide))]
  rfl

theorem run_props_closes {f : Props → Parse ν α} (h : p.sc.rest[0]? = some ch) (hc : Closes ch) :
    (turns Parser.size propsTurn {} >>= f) p = f {} p := by
  have hturn : (propsTurn {} : Parse ν (Turn Props Props)) p = some (.ok (.done {}, p)) := by
    rw [propsTurn, run_skipSpaces_solid h hc.solid.1, peek, run_read, h,
      if_neg (hc.ne (by decide)), if_neg (hc.ne (by decide))]
    rfl
  have hloop : (turns Parser.size propsTurn {} : Parse ν Props) p = some (.ok ({}, p)) := by
    show loop propsTurn (p.size + 1) {} p = _
    rw [loop, bind_apply, hturn]
    rfl
  rw [bind_apply, hloop]
  rfl

theorem hasKey_closes {s : Text} (h : s[0]? = some ch) (hc : Closes ch) :
    hasKey true 0 false false false s = false := by
  cases s with
  | nil => rfl
  | cons c s =>
      cases h
      obtain rfl | rfl := hc
      · rfl
      · rfl

end

section
variable (host : Host ν) {p : Parser ν} {ch : Char} (h : p.sc.rest[0]? = some ch)
  (hc : Closes ch)
include h hc

theorem run_parsePlainScalar_closes (indent : Nat) :
    parsePlainScalar host indent true none p = some (.ok (.nil, p)) := by
  have hend : isFlowEnd ch = true := by
    obtain rfl | rfl := hc
    · rfl
    · rfl
  have hturn : plainTurn host indent true none ⟨[], [], true⟩ p =
      some (.ok (.done .nil, p)) := by
    rw [plainTurn, peek, run_read, h]
    show (read _ >>= _) p = _
    rw [run_read, if_pos ⟨.inl rfl, hend⟩]
    rfl
  show loop (plainTurn host indent true none) (p.size + 1) ⟨[], [], true⟩ p = _
  rw [loop, bind_apply, hturn]
  rfl

theorem run_dispatch_closes (node : Nat → Bool → Parse ν (Value ν)) (strict : Bool)
    (fuel indent : Nat) :
    dispatch host node strict fuel indent true none p = some (.ok (.nil, p)) := by
  rw [dispatch, peek, run_read, peek, run_read, h, if_neg (hc.ne (by decide)),
    if_neg (hc.ne (by decide)), if_neg (hc.ne (by decide)), if_neg (hc.ne (by decide)),
    if_neg fun hd => hc.ne (by decide) hd.1, if_neg fun hd => hc.ne (by decide) hd.1,
    couldBeBlockMapping, run_read, hasKey_closes h hc, Bool.and_false, if_neg Bool.false_ne_true,
    if_neg (hc.ne (by decide)), if_neg (hc.ne (by decide))]
  exact run_parsePlainScalar_closes host h hc indent

/-- A node before a bracket that closes is nil, and takes nothing. -/
theorem run_parseNode_closes (strict : Bool) (fuel indent : Nat) :
    parseNode host strict fuel indent true p = none ∨
      parseNode host strict fuel indent true p = some (.ok (.nil, p)) := by
  cases fuel with
  | zero => exact .inl rfl
  | succ fuel =>
      refine .inr ?_
      have hvalue : nodeValue host (parseNode host strict fuel) strict fuel indent true none p =
          some (.ok (.nil, p)) := by
        rw [nodeValue, peek, run_read, h, if_neg (hc.ne (by decide)), parseValue,
          run_skipSpaces_solid h hc.solid.1, peek, run_read, run_read, h, if_neg]
        · exact run_dispatch_closes host h hc _ _ _ _
        · rintro (heq | heq)
          · exact hc.ne (by decide) heq
          · cases heq
      rw [parseNode, nodeBody, run_skipWs_solid h hc.solid, atEnd, run_read,
        if_neg (not_atEnd h), run_props_closes h hc, bind_apply, hvalue]
      rfl

end

section
variable {spare : Prop} {strict strict' : Bool}

theorem moves_skipComma_next {α β : Type} (b : α) :
    Ties spare (skipComma >>= fun _ => pure (.next b) : Parse ν (Turn α β))
      (skipComma >>= fun _ => pure (.next b)) :=
  ties_then moves_skipComma fun _ => ties_pure _

theorem ties_raise_misplaced {α : Type} (hspare : spare) :
    Ties spare (raise .misplaced : Parse ν α) (raise .misplaced) := fun _ => tied_refl (.inl hspare)

variable (host : Host ν) {node node' : Nat → Bool → Parse ν (Value ν)}
  (hnode : ∀ indent inFlow, Ties spare (node indent inFlow) (node' indent inFlow))
  (hstrict : spare ∧ strict = strict' ∨ strict = false ∧ strict' = true)

theorem run_flowItem_closes {p : Parser ν} {ch : Char} (h : p.sc.rest[0]? = some ch)
    (hc : Closes ch)
    (hclose : node 0 true p = none ∨ node 0 true p = some (.ok (.nil, p))) :
    flowItem node p = none ∨ flowItem node p = some (.ok (.nil, p)) := by
  rw [flowItem, bind_apply]
  obtain hnone | hnil := hclose
  · rw [hnone]
    exact .inl rfl
  · refine .inr ?_
    rw [hnil]
    show (skipWsAndComments >>= _) p = _
    rw [run_skipWs_solid h hc.solid, run_skipComma_closes h hc]
    rfl

theorem run_parseFlowKey_closes {p : Parser ν} {ch : Char} (h : p.sc.rest[0]? = some ch)
    (hc : Closes ch) : parseFlowKey host p = some (.ok (.nil, p)) := by
  have hempty : p.sc.rest.takeWhile (fun ch => !isFlowKeyEnd ch) = [] := by
    cases hs : p.sc.rest with
    | nil => rfl
    | cons c s =>
        rw [hs] at h
        cases h
        obtain rfl | rfl := hc
        · rfl
        · rfl
  rw [parseFlowKey, peek, run_read, h, if_neg (hc.ne (by decide)), if_neg (hc.ne (by decide)),
    bind_apply, takeWhile, run_read, hempty]
  rfl

theorem run_flowEntry_closes {p : Parser ν} {ch : Char} (h : p.sc.rest[0]? = some ch)
    (hc : Closes ch) : flowEntry host node p = some (.ok ((.nil, .nil), p)) := by
  have hvalue : flowValue node p = some (.ok (.nil, p)) := by
    rw [flowValue, peek, run_read, h, if_neg (hc.ne (by decide))]
    rfl
  rw [flowEntry, bind_apply, run_parseFlowKey_closes host h hc]
  show (skipWsAndComments >>= _) p = _
  rw [run_skipWs_solid h hc.solid, bind_apply, hvalue]
  show (skipWsAndComments >>= _) p = _
  rw [run_skipWs_solid h hc.solid, run_skipComma_closes h hc]
  rfl

include hnode hstrict

theorem tied_flowSequenceTurn (items : List (Value ν)) {p : Parser ν}
    (hstuck : ¬(strict = false ∧ strict' = true ∧ p.sc.rest[0]? = some '}')) :
    Tied spare Stop.misplaced (flowSequenceTurn node strict items p)
      (flowSequenceTurn node' strict' items p) := by
  have hitem : Ties spare
      (flowItem node >>= fun item => pure (.next (items ++ [item])) :
        Parse ν (Turn (List (Value ν)) (Value ν)))
      (flowItem node' >>= fun item => pure (.next (items ++ [item]))) :=
    ties_bind (ties_flowItem hnode) fun _ => ties_pure _
  rw [flowSequenceTurn, flowSequenceTurn, peek, run_read, run_read]
  cases h : p.sc.rest[0]? with
  | none => exact ties_same (moves_error _) p
  | some ch =>
      refine ties_ite (ties_closeFlow _) (ties_ite (moves_skipComma_next _) ?_) p
      obtain ⟨hspare, rfl⟩ | ⟨rfl, rfl⟩ := hstrict
      · exact ties_ite (ties_raise_misplaced hspare) hitem
      · rw [if_neg fun hc => Bool.false_ne_true hc.1, if_neg]
        · exact hitem
        · exact fun hc => hstuck ⟨rfl, rfl, by rw [h, hc.2]⟩

theorem tied_flowMappingTurn (map : Entries ν) {p : Parser ν}
    (hstuck : ¬(strict = false ∧ strict' = true ∧ p.sc.rest[0]? = some ']')) :
    Tied spare Stop.misplaced (flowMappingTurn host node strict map p)
      (flowMappingTurn host node' strict' map p) := by
  have hentry : Ties spare
      (flowEntry host node >>= fun entry => pure (.next (insert host map entry.1 entry.2)) :
        Parse ν (Turn (Entries ν) (Value ν)))
      (flowEntry host node' >>= fun entry => pure (.next (insert host map entry.1 entry.2))) :=
    ties_bind (ties_flowEntry host hnode) fun _ => ties_pure _
  rw [flowMappingTurn, flowMappingTurn, peek, run_read, run_read]
  cases h : p.sc.rest[0]? with
  | none => exact ties_same (moves_error _) p
  | some ch =>
      refine ties_ite (ties_closeFlow _) (ties_ite (moves_skipComma_next _) ?_) p
      obtain ⟨hspare, rfl⟩ | ⟨rfl, rfl⟩ := hstrict
      · exact ties_ite (ties_raise_misplaced hspare) hentry
      · rw [if_neg fun hc => Bool.false_ne_true hc.1, if_neg]
        · exact hentry
        · exact fun hc => hstuck ⟨rfl, rfl, by rw [h, hc.2]⟩

variable {fuel fuel' : Nat} (hfuel : fuel = fuel' ∨ spare ∧ fuel ≤ fuel')
  (hclose : ∀ (p : Parser ν) (ch : Char), p.sc.rest[0]? = some ch → Closes ch →
    node 0 true p = none ∨ node 0 true p = some (.ok (.nil, p)))
include hfuel hclose

omit hstrict hnode hfuel hclose in
theorem ties_openFlow : Ties spare (openFlow : Parse ν Unit) openFlow :=
  ties_then moves_advance fun _ => ties_bind (fun _ => tied_refl (.inr nofun)) fun _ =>
    ties_same moves_skipWsAndComments

/-- Where the strict loop stops before a brace, the other takes items from before it for ever. -/
theorem ties_parseFlowSequence : Ties spare (parseFlowSequence node strict fuel)
    (parseFlowSequence node' strict' fuel') := by
  refine ties_bind ties_openFlow fun _ p => ?_
  refine tied_loop
    (fun _ p => strict = false ∧ strict' = true ∧ p.sc.rest[0]? = some '}') ?_
    (fun items p hs => tied_flowSequenceTurn hnode hstrict items hs) fuel hfuel [] p
  rintro items p ⟨rfl, rfl, h⟩
  constructor
  · rw [flowSequenceTurn, peek, run_read, h]
    rfl
  · have hturn : flowSequenceTurn node false items p =
        (flowItem node >>= fun item => pure (.next (items ++ [item])) : Parse ν _) p := by
      rw [flowSequenceTurn, peek, run_read, h]
      rfl
    rw [hturn, bind_apply]
    obtain hnone | hnil := run_flowItem_closes h (.inr rfl) (hclose p '}' h (.inr rfl))
    · rw [hnone]
      exact .inl rfl
    · rw [hnil]
      exact .inr ⟨_, rfl, rfl, rfl, h⟩

omit hclose in
theorem ties_parseFlowMapping : Ties spare (parseFlowMapping host node strict fuel)
    (parseFlowMapping host node' strict' fuel') := by
  refine ties_bind ties_openFlow fun _ p => ?_
  refine tied_loop
    (fun _ p => strict = false ∧ strict' = true ∧ p.sc.rest[0]? = some ']') ?_
    (fun map p hs => tied_flowMappingTurn host hnode hstrict map hs) fuel hfuel [] p
  rintro map p ⟨rfl, rfl, h⟩
  constructor
  · rw [flowMappingTurn, peek, run_read, h]
    rfl
  · have hturn : flowMappingTurn host node false map p =
        (flowEntry host node >>= fun entry => pure (.next (insert host map entry.1 entry.2)) :
          Parse ν _) p := by
      rw [flowMappingTurn, peek, run_read, h]
      rfl
    rw [hturn, bind_apply, run_flowEntry_closes host h (.inl rfl)]
    exact .inr ⟨_, rfl, rfl, rfl, h⟩

theorem ties_dispatch (indent : Nat) (inFlow : Bool) (tag : Option Text) :
    Ties spare (dispatch host node strict fuel indent inFlow tag)
      (dispatch host node' strict' fuel' indent inFlow tag) :=
  ties_then (moves_read _) fun _ => ties_then (moves_read _) fun _ =>
    ties_ite (ties_parseFlowSequence hnode hstrict hfuel hclose)
      (ties_ite (ties_parseFlowMapping host hnode hstrict hfuel)
        (ties_ite (ties_same (takes_parseBlockScalar host _ _ _).moves)
          (ties_ite (ties_same (takes_parseBlockScalar host _ _ _).moves)
            (ties_ite (ties_parseBlockSequence hnode) (ties_ite (ties_parseBlockMapping host hnode)
              (ties_then (moves_read _) fun _ => ties_ite (ties_parseBlockMapping host hnode)
                (ties_ite (ties_same (takes_parseDoubleQuoted host _).moves)
                  (ties_ite (ties_same (takes_parseSingleQuoted host _).moves)
                    (ties_same (moves_parsePlainScalar host _ _ _))))))))))

theorem ties_nodeBody (indent : Nat) (inFlow : Bool) :
    Ties spare (nodeBody host node strict fuel indent inFlow)
      (nodeBody host node' strict' fuel' indent inFlow) := by
  have hdispatch (tag : Option Text) :=
    ties_dispatch host hnode hstrict hfuel hclose indent inFlow tag
  refine ties_then moves_skipWsAndComments fun _ => ties_then (moves_read _) fun _ =>
    ties_ite (ties_pure _) (ties_then (moves_turns (steps_props _) _) fun props => ?_)
  refine ties_bind
    (ties_then (moves_read _) fun _ => ties_ite (ties_same takes_parseAlias.moves) ?_)
    fun val => ties_then (moves_setAnchor _ _) fun _ => ties_pure _
  exact ties_then moves_skipSpaces fun _ => ties_then (moves_read _) fun _ =>
    ties_then (moves_read _) fun _ => ties_ite
      (ties_then moves_consumeNewline fun _ => ties_then moves_skipWsAndComments fun _ =>
        ties_then (moves_read _) fun _ => ties_ite (ties_pure _)
          (ties_then moves_skipSpaces fun _ => hdispatch _))
      (hdispatch _)

end

section
variable (host : Host ν) {spare : Prop} {strict strict' : Bool}
  (hstrict : spare ∧ strict = strict' ∨ strict = false ∧ strict' = true)
include hstrict

theorem ties_parseNode (fuel : Nat) : ∀ {fuel' : Nat}, fuel = fuel' ∨ spare ∧ fuel ≤ fuel' →
    ∀ indent inFlow, Ties spare (parseNode host strict fuel indent inFlow)
      (parseNode host strict' fuel' indent inFlow) := by
  induction fuel with
  | zero =>
      rintro fuel' (rfl | ⟨hspare, _⟩) indent inFlow p
      · exact tied_spent
      · exact tied_none _ (.inl hspare)
  | succ fuel ih =>
      intro fuel' hfuel indent inFlow
      obtain ⟨fuel', rfl⟩ : ∃ n, fuel' = n + 1 := ⟨fuel' - 1, by omega⟩
      have hless : fuel = fuel' ∨ spare ∧ fuel ≤ fuel' :=
        hfuel.imp (by omega) (by rintro ⟨h, _⟩; exact ⟨h, by omega⟩)
      exact ties_nodeBody host (ih hless) hstrict hless
        (fun p ch h hc => run_parseNode_closes host h hc strict fuel 0) indent inFlow

variable {fuel fuel' : Nat} (hfuel : fuel = fuel' ∨ spare ∧ fuel ≤ fuel')
include hfuel

theorem ties_parseDocument :
    Ties spare (parseDocument host strict fuel) (parseDocument host strict' fuel') :=
  ties_then moves_skipWsAndComments fun _ => ties_then (moves_read _) fun _ =>
    ties_ite (ties_pure _) (ties_then (moves_read _) fun _ => ties_then (moves_read _) fun _ =>
      ties_ite (ties_pure _) (ties_parseNode host hstrict fuel hfuel 0 false))

omit hstrict hfuel in
theorem moves_checkSuffix {k : Nat} : Moves false k (checkSuffix : Parse ν Unit) := fun p _ =>
  (ends_checkSuffix p).mono fun _ _ h => h.1

theorem ties_parseOne : Ties spare (parseOne host strict fuel) (parseOne host strict' fuel') :=
  ties_then (moves_skipDocumentPrefix host) fun _ =>
    ties_bind (ties_parseDocument host hstrict hfuel) fun _ =>
      ties_then moves_checkSuffix fun _ => ties_pure _

omit hstrict hfuel in
theorem moves_skipDocumentSuffix {k : Nat} :
    Moves false k (skipDocumentSuffix : Parse ν Bool) := fun p _ =>
  (ends_skipDocumentSuffix p).mono fun _ _ h => h.1

theorem ties_parseStream :
    Ties spare (parseStream host strict fuel) (parseStream host strict' fuel') :=
  ties_turns (fun _ => ties_then (moves_read _) fun _ => ties_ite (ties_pure _)
    (ties_then (moves_skipDocumentPrefix host) fun _ => ties_then (moves_read _) fun _ =>
      ties_ite (ties_pure _) (ties_then moves_skipWsAndComments fun _ =>
        ties_then (moves_read _) fun _ => ties_ite (ties_pure _)
          (ties_then (moves_read _) fun _ => ties_ite
            (ties_then moves_skipDocumentSuffix fun _ => ties_pure _)
            (ties_bind (ties_parseDocument host hstrict hfuel) fun _ =>
              ties_then moves_checkSuffix fun _ => ties_pure _))))) _

end

theorem tied_some {α : Type} {x y : Option (Except Stop α)} (h : Tied True Stop.misplaced x y)
    (hx : x.isSome) : y = x := by
  obtain ⟨heq, _⟩ | ⟨hnone, _⟩ := h
  · exact heq.symm
  · rw [hnone] at hx
    cases hx

/-- A parser ends just where the strict one does not stop before a bracket. -/
theorem run_ends_iff {α : Type} (run : Bool → Nat → Parse ν α)
    (hmoves : ∀ k fuel, k + 2 ≤ fuel → Moves true k (run true fuel))
    (hties : ∀ (spare : Prop) (strict strict' : Bool) (fuel fuel' : Nat),
      spare ∧ strict = strict' ∨ strict = false ∧ strict' = true →
      fuel = fuel' ∨ spare ∧ fuel ≤ fuel' → Ties spare (run strict fuel) (run strict' fuel'))
    (p : Parser ν) : (∃ fuel, (run false fuel p).isSome) ↔
      ¬ ∃ fuel, run true fuel p = some (.error .misplaced) := by
  have htie (fuel : Nat) : Tied False Stop.misplaced (run false fuel p) (run true fuel p) :=
    hties False false true fuel fuel (.inr ⟨rfl, rfl⟩) (.inl rfl) p
  have hmono (strict : Bool) {fuel fuel' : Nat} (hle : fuel ≤ fuel') :
      Tied True Stop.misplaced (run strict fuel p) (run strict fuel' p) :=
    hties True strict strict fuel fuel' (.inl ⟨trivial, rfl⟩) (.inr ⟨trivial, hle⟩) p
  constructor
  · rintro ⟨fuel, hsome⟩ ⟨fuel', hmark⟩
    have hlenient := tied_some (hmono false (Nat.le_max_left fuel fuel')) hsome
    have hstrict := tied_some (hmono true (Nat.le_max_right fuel fuel')) (by rw [hmark]; rfl)
    obtain ⟨heq, hfalse | hne⟩ | ⟨hnone, _⟩ := htie (max fuel fuel')
    · exact hfalse
    · exact hne (by rw [heq, hstrict, hmark])
    · rw [← hlenient, hnone] at hsome
      cases hsome
  · intro hno
    refine ⟨p.size + 2, ?_⟩
    have hsome := (hmoves p.size (p.size + 2) (Nat.le_refl _) p (Nat.le_refl _)).isSome
    obtain ⟨heq, _⟩ | ⟨_, hfalse | hmark⟩ := htie (p.size + 2)
    · rw [heq]
      exact hsome
    · exact hfalse.elim
    · exact absurd ⟨_, hmark⟩ hno

theorem settle_isSome {α : Type} (r : Option (Except Stop (α × Parser ν))) :
    (settle r).isSome = r.isSome := by
  cases r with
  | none => rfl
  | some r =>
      cases r with
      | error e => rfl
      | ok a => rfl

theorem settle_misplaced {α : Type} (r : Option (Except Stop (α × Parser ν))) :
    settle r = some (.error .misplaced) ↔ r = some (.error .misplaced) := by
  cases r with
  | none => simp [settle]
  | some r =>
      cases r with
      | error e => simp [settle]
      | ok a => simp [settle]

theorem outcome_ends_iff {α : Type} (host : Host ν) {run : Bool → Nat → Parse ν α}
    (h : ∀ p : Parser ν, (∃ fuel, (run false fuel p).isSome) ↔
      ¬ ∃ fuel, run true fuel p = some (.error .misplaced)) (text : Text) :
    (∃ fuel, (outcome host (run false fuel) text).isSome) ↔
      ¬ ∃ fuel, outcome host (run true fuel) text = some (.error .misplaced) := by
  unfold outcome
  cases newParser host text with
  | error e => exact ⟨fun _ => nofun, fun _ => ⟨0, rfl⟩⟩
  | ok p =>
      simp only [settle_isSome, settle_misplaced]
      exact h p

theorem parse_ends (host : Host ν) (text : Text) :
    (∃ fuel, (parse host false fuel text).isSome) ↔
      ¬ ∃ fuel, parse host true fuel text = some (.error .misplaced) :=
  outcome_ends_iff host (run_ends_iff (parseOne host)
    (fun _ _ hk => moves_parseOne host hk)
    (fun _ _ _ _ _ hstrict hfuel => ties_parseOne host hstrict hfuel)) text

theorem parseAll_ends (host : Host ν) (text : Text) :
    (∃ fuel, (parseAll host false fuel text).isSome) ↔
      ¬ ∃ fuel, parseAll host true fuel text = some (.error .misplaced) :=
  outcome_ends_iff host (run_ends_iff (parseStream host)
    (fun _ _ hk => moves_parseStream host hk)
    (fun _ _ _ _ _ hstrict hfuel => ties_parseStream host hstrict hfuel)) text

/-- Both readers end exactly on the texts where no turn over a flow sequence begins before a
brace that closes, and none over a flow mapping before a bracket that closes. -/
theorem yaml_ends_iff (host : Host ν) (text : Text) :
    ((∃ fuel, (parse host false fuel text).isSome) ↔
      ¬ ∃ fuel, parse host true fuel text = some (.error .misplaced)) ∧
    ((∃ fuel, (parseAll host false fuel text).isSome) ↔
      ¬ ∃ fuel, parseAll host true fuel text = some (.error .misplaced)) :=
  ⟨parse_ends host text, parseAll_ends host text⟩

/-- A language that finds no pattern in a text. -/
def plainHost : Host Unit where
  isMatch _ _ := .ok false
  replace _ _ s := .ok s
  toNumber _ _ := ()
  equalsWhole _ _ := true
  infinity := ()
  negInfinity := ()
  nan := ()
  toText _ := []

/-- A brace in a flow sequence, or a bracket in a flow mapping, is read for ever. -/
theorem yaml_runs_on :
    (¬ ∃ fuel, (parse plainHost false fuel ['[', '}']).isSome) ∧
      (¬ ∃ fuel, (parseAll plainHost false fuel ['[', '}']).isSome) ∧
      ¬ ∃ fuel, (parse plainHost false fuel ['{', ']']).isSome :=
  ⟨fun h => (parse_ends plainHost _).mp h ⟨4, rfl⟩,
    fun h => (parseAll_ends plainHost _).mp h ⟨4, rfl⟩,
    fun h => (parse_ends plainHost _).mp h ⟨4, rfl⟩⟩

end Zuri.Yaml
