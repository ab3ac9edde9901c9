import Zuri.Ffi.ConstSyntax

/-!
The reader follows the grammar: from the tokens of an expression it makes the expression's value
and leaves the tokens after it.
-/

namespace Zuri.Cdecl

variable {scope : Scope}

/-- What each part of the reader does with the tokens of an expression. -/
structure ReadAs (scope : Scope) (e : Expr) (value : Int) : Prop where
  unary : e.level = 12 → ∀ rest, Ends (unary scope · (e.tokens ++ rest)) (done value rest)
  binary : 2 ≤ e.level → ∀ min rest result, max min 1 < e.level → Below e.level rest →
    Ends (climb scope · min value rest) result →
    Ends (binary scope · min (e.tokens ++ rest)) result
  conditional : 1 ≤ e.level → ∀ rest, Closed rest →
    Ends (conditional scope · (e.tokens ++ rest)) (done value rest)
  expression : ∀ rest result, Closed rest → Ends (commas scope · value rest) result →
    Ends (expression scope · (e.tokens ++ rest)) result

variable {e : Expr} {value : Int}

theorem ReadAs.ofExpression (hlevel : e.level = 0)
    (h : ∀ rest result, Closed rest → Ends (commas scope · value rest) result →
      Ends (Cdecl.expression scope · (e.tokens ++ rest)) result) : ReadAs scope e value where
  unary := fun hl => by rw [hlevel] at hl; cases hl
  binary := fun hl => by rw [hlevel] at hl; cases hl
  conditional := fun hl => by rw [hlevel] at hl; cases hl
  expression := h

theorem ReadAs.ofConditional (hlevel : e.level = 1)
    (h : ∀ rest, Closed rest →
      Ends (Cdecl.conditional scope · (e.tokens ++ rest)) (done value rest)) :
    ReadAs scope e value where
  unary := fun hl => by omega
  binary := fun hl => by omega
  conditional := fun _ => h
  expression := fun rest _ hclosed hcommas => expression_ends (h rest hclosed) hcommas

theorem ReadAs.ofBinary (hlevel : 2 ≤ e.level) (hnot : e.level ≠ 12)
    (h : ∀ min rest result, max min 1 < e.level → Below e.level rest →
      Ends (climb scope · min value rest) result →
      Ends (Cdecl.binary scope · min (e.tokens ++ rest)) result) : ReadAs scope e value := by
  have hconditional : ∀ rest, Closed rest →
      Ends (Cdecl.conditional scope · (e.tokens ++ rest)) (done value rest) := fun rest hclosed =>
    conditional_ends (h 0 rest _ (by omega) (hclosed.below _)
      (climb_stop (hclosed.below _))) hclosed
  exact ⟨fun hl => absurd hl hnot, fun _ => h, fun _ => hconditional,
    fun rest _ hclosed hcommas => expression_ends (hconditional rest hclosed) hcommas⟩

theorem ReadAs.ofUnary
    (h : ∀ rest, Ends (Cdecl.unary scope · (e.tokens ++ rest)) (done value rest)) :
    ReadAs scope e value := by
  have hbinary : ∀ min rest result, Ends (climb scope · min value rest) result →
      Ends (Cdecl.binary scope · min (e.tokens ++ rest)) result :=
    fun min rest result hclimb => binary_ends (h rest) hclimb
  have hconditional : ∀ rest, Closed rest →
      Ends (Cdecl.conditional scope · (e.tokens ++ rest)) (done value rest) := fun rest hclosed =>
    conditional_ends (hbinary 0 rest _ (climb_stop (hclosed.below _))) hclosed
  exact ⟨fun _ => h, fun _ min rest result _ _ => hbinary min rest result, fun _ => hconditional,
    fun rest _ hclosed hcommas => expression_ends (hconditional rest hclosed) hcommas⟩

/-- The tokens do not start a type after a parenthesis. -/
def NoType (scope : Scope) (tokens : List Tok) : Prop :=
  (startsIdent tokens && scope.startsType tokens) = false

theorem written_noType (hwritten : e.Written scope) (rest : List Tok) :
    NoType scope (e.tokens ++ rest) := by
  induction e generalizing rest with
  | lit l => rfl
  | chr c =>
    obtain ⟨v, hv⟩ := Option.isSome_iff_exists.1 hwritten
    rw [Expr.tokens, hv]
    rfl
  | sizeOf e _ =>
    change (true && scope.startsType (.ident sizeofName :: _)) = false
    rw [Bool.true_and]
    exact hwritten.1 _
  | name n =>
    change (true && scope.startsType (.ident n :: rest)) = false
    rw [Bool.true_and]
    exact hwritten.notType rest
  | size keyword type =>
    change (true && scope.startsType (.ident keyword :: _)) = false
    rw [Bool.true_and]
    exact hwritten.2.1 _
  | cast type e _ => rfl
  | unary u e _ => cases u <;> rfl
  | binary op left right ihl _ =>
    rw [Expr.tokens, List.append_assoc]
    exact ihl hwritten.2.1 _
  | cond condition yes no ih _ _ =>
    rw [Expr.tokens, List.append_assoc]
    exact ih hwritten.2.1 _
  | comma first second ih _ =>
    rw [Expr.tokens, List.append_assoc]
    exact ih hwritten.2.1 _
  | paren e _ => rfl

theorem closed_rparen (rest : List Tok) : Closed (rparen :: rest) :=
  ⟨fun op after h => (by cases h), fun after h => (by cases h)⟩

theorem closed_colon (rest : List Tok) : Closed (.punct .colon :: rest) :=
  ⟨fun op after h => (by cases h), fun after h => (by cases h)⟩

theorem closed_comma (rest : List Tok) : Closed (.punct .comma :: rest) :=
  ⟨fun op after h => (by cases h), fun after h => (by cases h)⟩

theorem expectPunct_found (p : Punct) (rest : List Tok) (f : List Tok → Parse) :
    expectPunct p (.punct p :: rest) f = f rest := by
  rw [expectPunct, if_pos rfl]

theorem primary_name {n : Text} {rest : List Tok} (hvalue : nameValue scope n = some value) :
    primary scope (.ident n :: rest) = done value rest := by
  rw [nameValue] at hvalue
  rw [primary]
  split at hvalue
  · next htrue =>
    rw [if_pos htrue, Option.some.inj hvalue]
  · next htrue =>
    rw [if_neg htrue]
    split at hvalue
    · next hfalse =>
      rw [if_pos hfalse, Option.some.inj hvalue]
    · next hfalse =>
      rw [if_neg hfalse, hvalue]

theorem size_read {keyword : Text} {type : TypeName} (hreads : Reads scope type)
    (hvalue : (Expr.size keyword type).value scope = some value) (rest : List Tok) :
    sizeofType scope keyword (lparen :: (type.tokens ++ [rparen]) ++ rest) = done value rest := by
  rw [List.cons_append, List.append_assoc, List.singleton_append, sizeofType, expectPunct_found]
  simp only [hreads.starts, Bool.not_true, Bool.false_eq_true, if_false, hreads.name,
    expectPunct_found]
  rw [Expr.value] at hvalue
  cases hsize : if keyword = sizeofName then type.type.size else type.type.align with
  | none => rw [hsize] at hvalue; cases hvalue
  | some n =>
    rw [hsize] at hvalue
    rw [← Option.some.inj hvalue]

theorem unary_read {u : Unary} {operand : Int} {tokens rest : List Tok}
    (h : Ends (unary scope · tokens) (done operand rest)) :
    Ends (unary scope · (.punct u.punct :: tokens)) (done (u.apply operand) rest) :=
  h.succ fun n (hn : unary scope n tokens = _) => by
    cases u <;> simp only [Unary.punct, Unary.apply, unary, hn, next_done]

theorem cast_read {type : TypeName} {operand : Int} {tokens rest : List Tok}
    (hreads : Reads scope type) (h : Ends (unary scope · tokens) (done operand rest)) :
    Ends (unary scope · (lparen :: (type.tokens ++ rparen :: tokens)))
      (done (cast operand type.type.kind) rest) :=
  h.succ fun n (hn : unary scope n tokens = _) => by
    rw [unary]
    simp only [hreads.ident, hreads.starts, Bool.and_self, if_true, hreads.name,
      expectPunct_found, hn, next_done]

theorem paren_read {tokens rest : List Tok} (hno : NoType scope (tokens ++ rparen :: rest))
    (h : Ends (expression scope · (tokens ++ rparen :: rest)) (done value (rparen :: rest))) :
    Ends (unary scope · (lparen :: (tokens ++ rparen :: rest))) (done value rest) :=
  h.succ fun n (hn : expression scope n (tokens ++ rparen :: rest) = _) => by
    rw [NoType] at hno
    rw [unary]
    simp only [hno, Bool.false_eq_true, if_false, hn, next_done, expectPunct_found]

theorem cond_read {condition yes no : Int} {t₁ t₂ t₃ rest : List Tok}
    (hcondition : Ends (binary scope · 0 t₁) (done condition (.punct .question :: t₂)))
    (hyes : Ends (expression scope · t₂) (done yes (.punct .colon :: t₃)))
    (hno : Ends (conditional scope · t₃) (done no rest)) :
    Ends (conditional scope · t₁) (done (if condition ≠ 0 then yes else no) rest) := by
  obtain ⟨a, ha⟩ := hcondition
  obtain ⟨b, hb⟩ := hyes
  obtain ⟨c, hc⟩ := hno
  refine ⟨max a (max b c) + 1, fun n hn => ?_⟩
  obtain ⟨m, rfl⟩ : ∃ m, n = m + 1 := ⟨n - 1, by omega⟩
  have hcondition : binary scope m 0 t₁ = _ := ha m (by omega)
  have hyes : expression scope m t₂ = _ := hb m (by omega)
  have hno : conditional scope m t₃ = _ := hc m (by omega)
  change conditional scope (m + 1) t₁ = _
  rw [conditional, hcondition, next_done]
  simp only
  rw [hyes, next_done, expectPunct_found, hno, next_done]

/-- The reader makes an expression's value of its tokens. -/
theorem read_written (hwritten : e.Written scope) (hvalue : e.value scope = some value) :
    ReadAs scope e value := by
  induction e generalizing value with
  | lit l =>
    obtain rfl := Option.some.inj hvalue
    exact .ofUnary fun rest => .const fun n => rfl
  | chr c =>
    rw [Expr.value] at hvalue
    refine .ofUnary fun rest => .const fun n => ?_
    rw [Expr.tokens, hvalue]
    rfl
  | sizeOf e _ => cases hvalue
  | name n =>
    refine .ofUnary fun rest => .const fun fuel => ?_
    change unary scope (fuel + 1) (.ident n :: rest) = _
    rw [unary, if_neg hwritten.notKeyword, primary_name hvalue]
  | size keyword type =>
    obtain ⟨hkeyword, -, hreads⟩ := hwritten
    refine .ofUnary fun rest => .const fun fuel => ?_
    change unary scope (fuel + 1)
      (.ident keyword :: (lparen :: (type.tokens ++ [rparen]) ++ rest)) = _
    rw [unary, if_pos hkeyword, size_read hreads hvalue]
  | cast type e ih =>
    obtain ⟨hreads, hlevel, he⟩ := hwritten
    rw [Expr.value] at hvalue
    obtain ⟨operand, hoperand, rfl⟩ := Option.map_eq_some_iff.1 hvalue
    refine .ofUnary fun rest => ?_
    have hread := cast_read hreads ((ih he hoperand).unary hlevel rest)
    simpa only [Expr.tokens, List.cons_append, List.append_assoc] using hread
  | unary u e ih =>
    obtain ⟨hlevel, he⟩ := hwritten
    rw [Expr.value] at hvalue
    obtain ⟨operand, hoperand, rfl⟩ := Option.map_eq_some_iff.1 hvalue
    exact .ofUnary fun rest => unary_read ((ih he hoperand).unary hlevel rest)
  | binary op left right ihl ihr =>
    obtain ⟨⟨hleft, hright⟩, hl, hr⟩ := hwritten
    rw [Expr.value] at hvalue
    cases hlv : left.value scope with
    | none => simp [hlv] at hvalue
    | some l =>
      cases hrv : right.value scope with
      | none => simp [hlv, hrv] at hvalue
      | some r =>
        simp only [hlv, hrv] at hvalue
        have happly : apply op l r = .ok value := by
          cases ha : apply op l r with
          | error x => rw [ha] at hvalue; cases hvalue
          | ok v => rw [ha] at hvalue; rw [Option.some.inj hvalue]
        have hprec : 1 ≤ op.prec := by cases op <;> decide
        have hprec' : op.prec ≤ 10 := by cases op <;> decide
        refine .ofBinary (by simp only [Expr.level]; omega) (by simp only [Expr.level]; omega)
          fun min rest result hmin hbelow hclimb => ?_
        simp only [Expr.level] at hmin hbelow
        rw [Expr.tokens, List.append_assoc, List.cons_append]
        refine (ihl hl hlv).binary (by omega) min _ result (by omega) ?_ ?_
        · intro other after heq
          obtain ⟨hop, -⟩ := List.cons.inj heq
          cases hop
          omega
        · refine climb_goes (by omega) ?_ happly hclimb
          refine (ihr hr hrv).binary (by omega) _ rest _ (by omega) ?_ (climb_stop ?_)
          · exact fun other after heq => Nat.lt_of_lt_of_le (hbelow other after heq) (by omega)
          · exact fun other after heq => Nat.lt_of_lt_of_le (hbelow other after heq) (by omega)
  | cond condition yes no ihc ihy ihn =>
    obtain ⟨⟨hlevelc, hleveln⟩, hc, hy, hn⟩ := hwritten
    rw [Expr.value] at hvalue
    cases hcv : condition.value scope with
    | none => simp [hcv] at hvalue
    | some c =>
      cases hyv : yes.value scope with
      | none => simp [hcv, hyv] at hvalue
      | some y =>
        cases hnv : no.value scope with
        | none => simp [hcv, hyv, hnv] at hvalue
        | some v =>
          simp only [hcv, hyv, hnv] at hvalue
          obtain rfl := Option.some.inj hvalue
          refine .ofConditional rfl fun rest hclosed => ?_
          have hquestion : ∀ (min : Nat) (after : List Tok),
              Below min (.punct .question :: after) := fun min after op rest h => by cases h
          have hcondition := (ihc hc hcv).binary hlevelc 0
            (.punct .question :: (yes.tokens ++ .punct .colon :: (no.tokens ++ rest))) _ (by omega)
            (hquestion _ _) (climb_stop (hquestion _ _))
          have hyes := (ihy hy hyv).expression (.punct .colon :: (no.tokens ++ rest)) _
            (closed_colon _) (commas_stop fun after h => by cases h)
          have hread := cond_read hcondition hyes ((ihn hn hnv).conditional hleveln rest hclosed)
          simpa only [Expr.tokens, List.append_assoc, List.cons_append] using hread
  | comma first second ihf ihs =>
    obtain ⟨hlevel, hf, hs⟩ := hwritten
    rw [Expr.value] at hvalue
    cases hfv : first.value scope with
    | none => simp [hfv] at hvalue
    | some f =>
      cases hsv : second.value scope with
      | none => simp [hfv, hsv] at hvalue
      | some s =>
        simp only [hfv, hsv] at hvalue
        obtain rfl := Option.some.inj hvalue
        refine .ofExpression rfl fun rest result hclosed hcommas => ?_
        rw [Expr.tokens, List.append_assoc, List.cons_append]
        exact (ihf hf hfv).expression _ result (closed_comma _)
          (commas_goes ((ihs hs hsv).conditional hlevel rest hclosed) hcommas)
  | paren e ih =>
    have he : e.Written scope := hwritten
    refine .ofUnary fun rest => ?_
    have hread := paren_read (written_noType he (rparen :: rest))
      ((ih he hvalue).expression (rparen :: rest) _ (closed_rparen rest)
        (commas_stop fun after h => by cases h))
    simpa only [Expr.tokens, List.cons_append, List.append_assoc, List.nil_append] using hread

/-- What a whole expression is read as, before the end of the input. -/
theorem expression_read (hwritten : e.Written scope) (hvalue : e.value scope = some value) :
    Ends (expression scope · (e.tokens ++ [.eof])) (done value [.eof]) :=
  (read_written hwritten hvalue).expression [.eof] _
    ⟨fun op after h => (by cases h), fun after h => (by cases h)⟩
    (commas_stop fun after h => by cases h)

end Zuri.Cdecl
