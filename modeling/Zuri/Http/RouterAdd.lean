import Zuri.Http.Router

/-!
What a registration does to the trie. The handlers of the pattern's own shape gain the route, those
of every other shape stay, and all stay when an error is raised.
-/

namespace Zuri.Routing

theorem nodeAt_empty (marks : List Mark) :
    handlersAt marks {} = [] := by
  cases marks with
  | nil => rfl
  | cons mark rest => cases mark <;> rfl

section Children

variable (node : Node) (rest : List Mark)

theorem handlersAt_nil : handlersAt [] node = node.handlers := rfl

theorem handlersAt_literal (segment : Text) : handlersAt (.literal segment :: rest) node =
    handlersAt rest ((OrderedMap.get (· == ·) node.children segment).getD {}) := by
  cases hchild : OrderedMap.get (· == ·) node.children segment with
  | none =>
    rw [Option.getD_none, nodeAt_empty]
    simp [handlersAt, nodeAt, hchild]
  | some child => simp [handlersAt, nodeAt, hchild]

theorem handlersAt_param :
    handlersAt (.param :: rest) node = handlersAt rest (node.param.getD {}) := by
  cases hchild : node.param with
  | none =>
    rw [Option.getD_none, nodeAt_empty]
    simp [handlersAt, nodeAt, hchild]
  | some child => simp [handlersAt, nodeAt, hchild]

theorem handlersAt_wildcard :
    handlersAt (.wildcard :: rest) node = handlersAt rest (node.wildcard.getD {}) := by
  cases hchild : node.wildcard with
  | none =>
    rw [Option.getD_none, nodeAt_empty]
    simp [handlersAt, nodeAt, hchild]
  | some child => simp [handlersAt, nodeAt, hchild]

end Children

/-- What a registration leaves at a shape: the handlers there were, and the route if it is the
pattern's shape and no error is raised. -/
def Left (route : Route) (pattern : List Text) (before after : Node) (error : Option Error) :
    Prop :=
  ∀ marks, handlersAt marks after =
    if error.isNone ∧ marks = shape pattern then
      OrderedMap.put (· == ·) (handlersAt marks before) route.method route
    else handlersAt marks before

/-- A registration that succeeds finds no handler for its method at the shape of the pattern. -/
theorem insert_spec (text : Text) (route : Route) (pattern : List Text) (node : Node) :
    Left route pattern node (insert text route pattern node).1 (insert text route pattern node).2 ∧
      ((insert text route pattern node).2 = none →
        OrderedMap.get (· == ·) (handlersAt (shape pattern) node) route.method = none) := by
  induction pattern generalizing node with
  | nil =>
    rw [insert]
    split
    · refine ⟨fun marks => ?_, fun h => by cases h⟩
      simp
    · next hfree =>
      refine ⟨fun marks => ?_, fun _ => by simpa [shape, handlersAt_nil] using hfree⟩
      cases marks with
      | nil => simp [shape, handlersAt_nil]
      | cons mark rest =>
        rw [if_neg (by simp [shape])]
        cases mark with
        | literal segment => rw [handlersAt_literal, handlersAt_literal]
        | param => rw [handlersAt_param, handlersAt_param]
        | wildcard => rw [handlersAt_wildcard, handlersAt_wildcard]
  | cons segment rest ih =>
    rw [insert]
    cases hkey : key segment with
    | wildcard name =>
      have hshape : shape (segment :: rest) = .wildcard :: shape rest := by
        simp [shape, hkey, Key.mark]
      simp only
      split
      · exact ⟨fun marks => by simp, fun h => by cases h⟩
      · obtain ⟨hleft, hfree⟩ := ih (node.wildcard.getD {})
        refine ⟨fun marks => ?_, fun h => ?_⟩
        · rw [hshape]
          cases marks with
          | nil => simp [handlersAt_nil]
          | cons mark marks =>
            cases mark with
            | literal segment => simp [handlersAt_literal]
            | param => simp [handlersAt_param]
            | wildcard =>
              rw [handlersAt_wildcard, handlersAt_wildcard, Option.getD_some, hleft marks]
              simp
        · rw [hshape, handlersAt_wildcard]
          exact hfree h
    | param name =>
      have hshape : shape (segment :: rest) = .param :: shape rest := by
        simp [shape, hkey, Key.mark]
      simp only
      split
      · exact ⟨fun marks => by simp, fun h => by cases h⟩
      · obtain ⟨hleft, hfree⟩ := ih (node.param.getD {})
        refine ⟨fun marks => ?_, fun h => ?_⟩
        · rw [hshape]
          cases marks with
          | nil => simp [handlersAt_nil]
          | cons mark marks =>
            cases mark with
            | literal segment => simp [handlersAt_literal]
            | wildcard => simp [handlersAt_wildcard]
            | param =>
              rw [handlersAt_param, handlersAt_param, Option.getD_some, hleft marks]
              simp
        · rw [hshape, handlersAt_param]
          exact hfree h
    | literal own =>
      have hshape : shape (segment :: rest) = .literal own :: shape rest := by
        simp [shape, hkey, Key.mark]
      obtain ⟨hleft, hfree⟩ := ih ((OrderedMap.get (· == ·) node.children own).getD {})
      refine ⟨fun marks => ?_, fun h => ?_⟩
      · rw [hshape]
        cases marks with
        | nil => simp [handlersAt_nil]
        | cons mark marks =>
          cases mark with
          | param => simp [handlersAt_param]
          | wildcard => simp [handlersAt_wildcard]
          | literal other =>
            rw [handlersAt_literal, handlersAt_literal, OrderedMap.get_put]
            by_cases hother : own = other
            · subst hother
              rw [if_pos (beq_self_eq_true own), Option.getD_some, hleft marks]
              simp
            · rw [if_neg (by simpa using hother), if_neg]
              rintro ⟨-, h⟩
              exact hother (Mark.literal.inj (List.cons.inj h).1).symm
      · rw [hshape, handlersAt_literal]
        exact hfree h

/-- A call of `add`. -/
structure Call where
  method : Text
  pattern : Text
  callable : Bool

/-- The router after some calls. -/
def run (upper : Text → Text) (calls : List Call) : Router :=
  calls.foldl (fun router call => (router.add upper call.method call.pattern call.callable).1) {}

/-- The shape of a route. -/
def Route.shape (route : Route) : List Mark := Routing.shape (segments route.pattern)

/-- What holds of a router after any calls. -/
structure Inv (router : Router) : Prop where
  handlers : ∀ marks method route,
    OrderedMap.get (· == ·) (handlersAt marks router.root) method = some route ↔
      route ∈ router.routes ∧ route.method = method ∧ route.shape = marks
  static : ∀ text route, OrderedMap.get (· == ·) router.staticRoutes text = some route →
    route ∈ router.routes ∧ (':' ∉ route.pattern ∧ '*' ∉ route.pattern) ∧
      text = route.method ++ ' ' :: route.pattern

theorem Inv.empty : Inv {} where
  handlers := fun marks method route => by
    rw [nodeAt_empty]
    simp [OrderedMap.get]
  static := fun text route h => by simp [OrderedMap.get] at h

/-- The parts of a registration that went through. -/
theorem add_ok {upper : Text → Text} {router : Router} {method pattern : Text} {callable : Bool}
    (hok : (router.add upper method pattern callable).2 = none) :
    (insert pattern ⟨upper method, pattern⟩ (segments pattern) router.root).2 = none ∧
      (router.add upper method pattern callable).1 =
        { root := (insert pattern ⟨upper method, pattern⟩ (segments pattern) router.root).1
          routes := router.routes ++ [⟨upper method, pattern⟩]
          staticRoutes :=
            if !pattern.contains ':' && !pattern.contains '*' then
              OrderedMap.put (· == ·) router.staticRoutes (upper method ++ ' ' :: pattern)
                ⟨upper method, pattern⟩
            else router.staticRoutes } := by
  rw [Router.add] at hok ⊢
  split at hok
  · cases hok
  · split at hok
    · cases hok
    · next hcallable hslash =>
      simp only [hcallable, hslash, if_false, Bool.false_eq_true] at hok ⊢
      cases herror : (insert pattern ⟨upper method, pattern⟩ (segments pattern) router.root).2 with
      | some e => simp [herror] at hok
      | none => exact ⟨rfl, rfl⟩

/-- A registration that raises leaves the routes, the table and the handlers of every shape. -/
theorem add_error {upper : Text → Text} {router : Router} {method pattern : Text} {callable : Bool}
    {e : Error} (herror : (router.add upper method pattern callable).2 = some e) :
    (router.add upper method pattern callable).1.routes = router.routes ∧
      (router.add upper method pattern callable).1.staticRoutes = router.staticRoutes ∧
      ∀ marks, handlersAt marks (router.add upper method pattern callable).1.root =
        handlersAt marks router.root := by
  rw [Router.add] at herror ⊢
  split at herror
  · next hcallable =>
    rw [if_pos hcallable]
    exact ⟨rfl, rfl, fun _ => rfl⟩
  · next hcallable =>
    rw [if_neg hcallable]
    split at herror
    · next hslash =>
      rw [if_pos hslash]
      exact ⟨rfl, rfl, fun _ => rfl⟩
    · next hslash =>
      rw [if_neg hslash]
      have hleft := (insert_spec pattern ⟨upper method, pattern⟩ (segments pattern) router.root).1
      cases hinsert : (insert pattern ⟨upper method, pattern⟩ (segments pattern) router.root).2 with
      | none => simp [hinsert] at herror
      | some e' =>
        rw [hinsert] at hleft
        simp only [hinsert]
        refine ⟨trivial, trivial, fun marks => ?_⟩
        simpa using hleft marks

theorem Inv.add {router : Router} (hinv : Inv router) (upper : Text → Text) (method pattern : Text)
    (callable : Bool) : Inv (router.add upper method pattern callable).1 := by
  cases herror : (router.add upper method pattern callable).2 with
  | some e =>
    obtain ⟨hroutes, hstatic, hhandlers⟩ := add_error herror
    refine ⟨fun marks method route => ?_, fun text route h => ?_⟩
    · rw [hhandlers, hroutes]
      exact hinv.handlers marks method route
    · rw [hroutes]
      rw [hstatic] at h
      exact hinv.static text route h
  | none =>
    obtain ⟨hinsert, hafter⟩ := add_ok herror
    obtain ⟨hleft, hfree⟩ :=
      insert_spec pattern ⟨upper method, pattern⟩ (segments pattern) router.root
    have hfree := hfree hinsert
    rw [hinsert] at hleft
    rw [hafter]
    refine ⟨fun marks m route => ?_, fun text route h => ?_⟩
    · rw [List.mem_append, List.mem_singleton, hleft marks]
      by_cases hmarks : marks = shape (segments pattern)
      · rw [if_pos ⟨rfl, hmarks⟩, OrderedMap.get_put]
        by_cases hm : upper method = m
        · subst hm
          rw [if_pos (beq_self_eq_true _)]
          constructor
          · intro h
            obtain rfl := Option.some.inj h
            exact ⟨.inr rfl, rfl, hmarks.symm⟩
          · rintro ⟨hmem | rfl, hmethod, hshape⟩
            · have hgot := (hinv.handlers marks (upper method) route).2 ⟨hmem, hmethod, hshape⟩
              rw [hmarks, hfree] at hgot
              cases hgot
            · rfl
        · rw [if_neg (by simpa using hm), hinv.handlers]
          refine ⟨fun ⟨hmem, h⟩ => ⟨.inl hmem, h⟩, ?_⟩
          rintro ⟨hmem | rfl, hmethod, hshape⟩
          · exact ⟨hmem, hmethod, hshape⟩
          · exact absurd hmethod hm
      · rw [if_neg fun h => hmarks h.2, hinv.handlers]
        refine ⟨fun ⟨hmem, h⟩ => ⟨.inl hmem, h⟩, ?_⟩
        rintro ⟨hmem | rfl, hmethod, hshape⟩
        · exact ⟨hmem, hmethod, hshape⟩
        · exact absurd hshape.symm hmarks
    · have hold : OrderedMap.get (· == ·) router.staticRoutes text = some route →
          route ∈ router.routes ++ [⟨upper method, pattern⟩] ∧
            (':' ∉ route.pattern ∧ '*' ∉ route.pattern) ∧
              text = route.method ++ ' ' :: route.pattern := fun h =>
        ⟨List.mem_append_left _ (hinv.static text route h).1, (hinv.static text route h).2⟩
      simp only at h
      split at h
      · next hplain =>
        rw [OrderedMap.get_put] at h
        split at h
        · next htext =>
          obtain rfl := Option.some.inj h
          refine ⟨List.mem_append_right _ List.mem_cons_self, by simpa using hplain, ?_⟩
          exact (by simpa using htext : _ = text).symm
        · exact hold h
      · exact hold h

/-- After any calls, the trie has exactly the routes registered, each at its shape. -/
theorem inv_run (upper : Text → Text) (calls : List Call) : Inv (run upper calls) := by
  have hfold : ∀ (calls : List Call) (router : Router), Inv router →
      Inv (calls.foldl
        (fun router call =>
          (router.add upper call.method call.pattern call.callable).1) router) := by
    intro calls
    induction calls with
    | nil => exact fun router hinv => hinv
    | cons call calls ih => exact fun router hinv => ih _ (hinv.add upper _ _ _)
  exact hfold calls {} .empty

end Zuri.Routing
