import Zuri.Http.RouterAdd

/-!
What a match answers, given the routes that are registered. It takes the most specific shape of the
path that is registered for any method, and has the route of its method there, or reports the
methods there.
-/

namespace Zuri.Routing

/-- A route answers a method: it is its own, or that of `GET` for `HEAD`. -/
def Answers (method : Text) (route : Route) : Prop :=
  route.method = method ∨ (method = HEAD ∧ route.method = GET)

/-- A route that answers, and that no route with the method itself comes before at its shape. -/
def Preferred (routes : List Route) (method : Text) (route : Route) : Prop :=
  Answers method route ∧
    ((∃ other ∈ routes, other.shape = route.shape ∧ other.method = method) → route.method = method)

/-- A route's pattern matches a path. -/
def Matches (path : Text) (route : Route) : Prop := route.shape ∈ shapes (segments path)

/-- A route that answers, and whose pattern comes first among those that answer and match. -/
structure First (routes : List Route) (method path : Text) (route : Route) : Prop where
  mem : route ∈ routes
  answers : Answers method route
  first : ∃ before after, shapes (segments path) = before ++ route.shape :: after ∧
    ∀ other ∈ routes, Answers method other → other.shape ∉ before

/-- What a match is to answer. The methods it reports are those of the patterns that match, and
those that the server answers of itself. -/
structure Right (routes : List Route) (method path : Text) (result : RouteMatch) : Prop where
  route : ∀ route, result.route = some route → First routes method path route
  found : (∃ route ∈ routes, Answers method route ∧ Matches path route) → result.route.isSome = true
  reports : result.route = none → ∀ route ∈ routes, Matches path route →
    result.allowed.contains route.method = true
  only : ∀ m, result.allowed.contains m = true →
    ∃ route ∈ routes, Matches path route ∧ (Answers m route ∨ m = OPTIONS)

/-- The most specific shape of a path that is registered for any method. -/
def top (routes : List Route) (path : Text) : Option (List Mark) :=
  (shapes (segments path)).find? fun marks => routes.any fun route => route.shape == marks

/-- What the shape that the search ends at has to have: a route for the method, or, when no pattern
of the method matches, every method of the patterns that do. -/
def Clear (routes : List Route) (method path : Text) : Prop :=
  ∀ marks, top routes path = some marks →
    (∃ route ∈ routes, route.shape = marks ∧ Answers method route) ∨
      ∀ route ∈ routes, Matches path route → ¬ Answers method route ∧
        ((∃ other ∈ routes, other.shape = marks ∧ Answers route.method other) ∨
          route.method = OPTIONS)

section Search

variable {router : Router} (hinv : Inv router)
include hinv

theorem handlers_any (marks : List Mark) :
    (handlersAt marks router.root).isEmpty = false ↔
      router.routes.any (fun route => route.shape == marks) = true := by
  rw [List.any_eq_true]
  constructor
  · intro hsome
    obtain ⟨entry, rest, hentries⟩ :=
      List.exists_cons_of_ne_nil (List.isEmpty_eq_false_iff.1 hsome)
    have hgot : OrderedMap.get (· == ·) (handlersAt marks router.root) entry.1 = some entry.2 := by
      rw [hentries]
      simp [OrderedMap.get]
    obtain ⟨hmem, -, hshape⟩ := (hinv.handlers marks _ _).1 hgot
    exact ⟨entry.2, hmem, by simpa using hshape⟩
  · rintro ⟨route, hmem, hshape⟩
    have hgot := (hinv.handlers marks route.method route).2 ⟨hmem, rfl, by simpa using hshape⟩
    rw [List.isEmpty_eq_false_iff]
    intro hnil
    rw [hnil] at hgot
    simp [OrderedMap.get] at hgot

omit hinv in
theorem findSome_find {α β : Type} {f : α → Option β} {p : α → Bool}
    (hf : ∀ a, (f a).isSome = p a) (l : List α) : l.findSome? f = (l.find? p).bind f := by
  induction l with
  | nil => rfl
  | cons a l ih =>
    rw [List.findSome?_cons, List.find?_cons, ← hf a]
    cases ha : f a with
    | none => exact ih
    | some b => simp [ha]

/-- The search ends at the top shape. -/
theorem find_top (path : Text) :
    router.root.find (segments path) =
      (top router.routes path).bind (foundAt router.root (segments path)) := by
  rw [find_eq, top]
  refine findSome_find (fun marks => ?_) _
  rw [Bool.eq_iff_iff, ← handlers_any hinv marks, foundAt, handlersAt]
  cases nodeAt marks router.root with
  | none => simp
  | some node =>
    cases hh : node.handlers.isEmpty with
    | true => simp [hh]
    | false => simp [hh]

/-- At the top shape there is a node, which has handlers. -/
theorem found_top {path : Text} {marks : List Mark} (htop : top router.routes path = some marks) :
    ∃ node, router.root.find (segments path) =
        some (node, captures marks router.root (segments path)) ∧
      nodeAt marks router.root = some node ∧ node.handlers = handlersAt marks router.root := by
  have hany := List.find?_some htop
  rw [← handlers_any hinv] at hany
  rw [find_top hinv, htop, Option.bind_some, foundAt]
  cases hnode : nodeAt marks router.root with
  | none => simp [handlersAt, hnode] at hany
  | some node =>
    have hhandlers : node.handlers = handlersAt marks router.root := by simp [handlersAt, hnode]
    refine ⟨node, ?_, rfl, hhandlers⟩
    simp only
    rw [if_neg (by rw [hhandlers, hany]; exact Bool.false_ne_true)]

/-- The handler of a shape that answers is that of a route there, if there is one. -/
theorem handler_spec {node : Node} {marks : List Mark} (method : Text)
    (hnode : node.handlers = handlersAt marks router.root) :
    (∀ route, node.handler method = some route →
        route ∈ router.routes ∧ route.shape = marks ∧ Preferred router.routes method route) ∧
      (node.handler method = none →
        ∀ route ∈ router.routes, route.shape = marks → ¬ Answers method route) := by
  have hget : ∀ m route, OrderedMap.get (· == ·) node.handlers m = some route ↔
      route ∈ router.routes ∧ route.method = m ∧ route.shape = marks := fun m route => by
    rw [hnode]
    exact hinv.handlers marks m route
  rw [Node.handler]
  cases hown : OrderedMap.get (· == ·) node.handlers method with
  | some own =>
    obtain ⟨hmem, hmethod, hshape⟩ := (hget method own).1 hown
    refine ⟨fun route h => ?_, fun h => by cases h⟩
    obtain rfl := Option.some.inj h
    exact ⟨hmem, hshape, .inl hmethod, fun _ => hmethod⟩
  | none =>
    have hno : ∀ route ∈ router.routes, route.shape = marks → route.method ≠ method := by
      intro route hmem hshape hmethod
      rw [(hget method route).2 ⟨hmem, hmethod, hshape⟩] at hown
      cases hown
    simp only
    by_cases hhead : method = HEAD
    · rw [if_pos hhead]
      refine ⟨fun route h => ?_, fun h route hmem hshape => ?_⟩
      · obtain ⟨hmem, hmethod, hshape⟩ := (hget GET route).1 h
        refine ⟨hmem, hshape, .inr ⟨hhead, hmethod⟩, fun ⟨other, hother, hsame, hown⟩ => ?_⟩
        exact absurd hown (hno other hother (hsame.trans hshape))
      · rintro (hmethod | ⟨-, hmethod⟩)
        · exact hno route hmem hshape hmethod
        · rw [(hget GET route).2 ⟨hmem, hmethod, hshape⟩] at h
          cases h
    · rw [if_neg hhead]
      refine ⟨fun route h => (by cases h), fun _ route hmem hshape => ?_⟩
      rintro (hmethod | ⟨hhead', -⟩)
      · exact hno route hmem hshape hmethod
      · exact hhead hhead'

omit hinv in
theorem get_isSome {entries : List (Text × Route)} (m : Text) :
    (entries.map Prod.fst).contains m = true ↔
      ∃ route, OrderedMap.get (· == ·) entries m = some route := by
  induction entries with
  | nil => simp [OrderedMap.get]
  | cons entry rest ih =>
    rw [List.map_cons, List.contains_cons, Bool.or_eq_true, ih]
    by_cases hm : entry.1 = m
    · subst hm
      simp [OrderedMap.get]
    · have hbeq : (entry.1 == m) = false := by simpa using hm
      have hbeq' : (m == entry.1) = false := by simpa using fun h => hm h.symm
      simp [OrderedMap.get, hbeq, hbeq']

omit hinv in
theorem contains_add (methods : List Text) (p : Bool) (x m : Text) :
    (if p && !methods.contains x then methods ++ [x] else methods).contains m = true ↔
      methods.contains m = true ∨ (p = true ∧ m = x) := by
  cases p with
  | false => simp
  | true =>
    cases hx : methods.contains x with
    | false => simp [-List.contains_eq_mem]
    | true =>
      refine ⟨.inl, ?_⟩
      rintro (h | ⟨-, rfl⟩)
      · exact h
      · exact hx

/-- The methods a shape's node reports. -/
theorem allowed_spec {node : Node} {marks : List Mark}
    (hnode : node.handlers = handlersAt marks router.root)
    (hsome : (handlersAt marks router.root).isEmpty = false) (m : Text) :
    (allowed node).contains m = true ↔
      (∃ route ∈ router.routes, route.shape = marks ∧ Answers m route) ∨ m = OPTIONS := by
  have hmethod : ∀ m, (node.handlers.map Prod.fst).contains m = true ↔
      ∃ route ∈ router.routes, route.shape = marks ∧ route.method = m := fun m => by
    rw [get_isSome, hnode]
    simp only [hinv.handlers]
    exact ⟨fun ⟨r, hr, hm, hs⟩ => ⟨r, hr, hs, hm⟩, fun ⟨r, hr, hs, hm⟩ => ⟨r, hr, hm, hs⟩⟩
  have hfull : ∀ (p : Bool) x, (if p && !(node.handlers.map Prod.fst).contains x then
      node.handlers.map Prod.fst ++ [x] else node.handlers.map Prod.fst).isEmpty = false := by
    intro p x
    split
    · simp
    · rw [List.isEmpty_eq_false_iff, Ne, List.map_eq_nil_iff, hnode]
      exact List.isEmpty_eq_false_iff.1 hsome
  simp only [allowed, contains_add, hfull, Bool.not_false, true_and, hmethod]
  refine or_congr_left ?_
  simp only [Answers]
  grind

omit hinv in
theorem top_split {routes : List Route} {path : Text} {marks : List Mark}
    (htop : top routes path = some marks) :
    ∃ before after, shapes (segments path) = before ++ marks :: after ∧
      ∀ route ∈ routes, route.shape ∉ before := by
  obtain ⟨-, before, after, hsplit, hbefore⟩ := List.find?_eq_some_iff_append.1 htop
  refine ⟨before, after, hsplit, fun route hmem hin => ?_⟩
  have hnot := hbefore _ hin
  rw [Bool.not_eq_true', List.any_eq_false] at hnot
  exact hnot route hmem (by simp)

omit hinv in
theorem top_none {routes : List Route} {path : Text} (htop : top routes path = none) :
    ∀ route ∈ routes, ¬ Matches path route := by
  intro route hmem hmatch
  have hnot := List.find?_eq_none.1 htop _ hmatch
  rw [Bool.not_eq_true, List.any_eq_false] at hnot
  exact hnot route hmem (by simp)

/-- Where the table of static routes has no answer, a match is right exactly where the shape that
the search ends at has what it has to. -/
theorem right_of_search (upper : Text → Text) (method path : Text)
    (hstatic : router.static (upper method) path = none) :
    Right router.routes (upper method) path (router.matchPath upper method path) ↔
      Clear router.routes (upper method) path := by
  rw [Router.matchPath, hstatic]
  simp only
  cases htop : top router.routes path with
  | none =>
    rw [find_top hinv, htop, Option.bind_none]
    have hnone := top_none htop
    refine iff_of_true ⟨fun route h => (by cases h), ?_, fun _ route hmem hmatch => ?_,
      fun m h => by cases h⟩ (fun marks h => by rw [htop] at h; cases h)
    · rintro ⟨route, hmem, -, hmatch⟩
      exact absurd hmatch (hnone route hmem)
    · exact absurd hmatch (hnone route hmem)
  | some marks =>
    obtain ⟨node, hfind, hat, hhandlers⟩ := found_top hinv htop
    obtain ⟨before, after, hsplit, hbefore⟩ := top_split htop
    have hmatches : ∀ route, route.shape = marks → Matches path route := fun route hshape => by
      rw [Matches, hsplit, hshape]
      exact List.mem_append_right _ List.mem_cons_self
    have hregistered := List.find?_some htop
    have hany := (handlers_any hinv marks).2 hregistered
    obtain ⟨hsome, hnone⟩ := handler_spec hinv (upper method) hhandlers
    have hallowed := allowed_spec hinv hhandlers hany
    rw [hfind]
    simp only
    cases hhandler : node.handler (upper method) with
    | some route =>
      obtain ⟨hmem, hshape, hanswers, -⟩ := hsome route hhandler
      refine iff_of_true ⟨fun found h => ?_, fun _ => rfl, fun h => (by cases h),
        fun m h => by cases h⟩ fun marks' h => ?_
      · obtain rfl := Option.some.inj h
        exact ⟨hmem, hanswers, before, after, by rw [hshape]; exact hsplit,
          fun other hother _ => hbefore other hother⟩
      · rw [htop] at h
        obtain rfl := Option.some.inj h
        exact .inl ⟨route, hmem, hshape, hanswers⟩
    | none =>
      have hnone := hnone hhandler
      constructor
      · intro hright marks' h
        rw [htop] at h
        obtain rfl := Option.some.inj h
        refine .inr fun route hmem hmatch => ⟨fun hanswers => ?_, ?_⟩
        · have := hright.found ⟨route, hmem, hanswers, hmatch⟩
          cases this
        · exact (hallowed route.method).1 (hright.reports rfl route hmem hmatch)
      · intro hclear
        rcases hclear marks htop with ⟨route, hmem, hshape, hanswers⟩ | hlisted
        · exact absurd hanswers (hnone route hmem hshape)
        · refine ⟨fun route h => (by cases h), ?_, fun _ route hmem hmatch => ?_, fun m h => ?_⟩
          · rintro ⟨route, hmem, hanswers, hmatch⟩
            exact absurd hanswers (hlisted route hmem hmatch).1
          · exact (hallowed _).2 (hlisted route hmem hmatch).2
          · rcases (hallowed m).1 h with ⟨route, hmem, hshape, hanswers⟩ | hoptions
            · exact ⟨route, hmem, hmatches route hshape, .inl hanswers⟩
            · obtain ⟨route, hmem, hshape⟩ := List.any_eq_true.1 hregistered
              exact ⟨route, hmem, hmatches route (by simpa using hshape), .inr hoptions⟩

end Search

end Zuri.Routing
