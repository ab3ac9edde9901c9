import Zuri.Coding.Separated
import Zuri.Http.RouterMatch

/-!
When routing is right, whatever was registered before: the table of static routes agrees with the
trie, parameters have the names of the route's own pattern where the trie has kept them, and a
registration that raises changes nothing but names.
-/

namespace Zuri.Routing

theorem splitOn_mem {path part : Text} (hpart : part ∈ path.splitOn '/') :
    ∀ c ∈ part, c ∈ path := by
  induction path generalizing part with
  | nil =>
    rw [List.splitOn_nil, List.mem_singleton] at hpart
    rw [hpart]
    exact fun c hc => hc
  | cons d path ih =>
    rw [List.splitOn_cons_eq_if_modifyHead] at hpart
    split at hpart
    · rcases List.mem_cons.1 hpart with rfl | hpart
      · exact fun c hc => absurd hc List.not_mem_nil
      · exact fun c hc => List.mem_cons_of_mem _ (ih hpart c hc)
    · obtain ⟨head, tail, heq⟩ := List.exists_cons_of_ne_nil (List.splitOn_ne_nil '/' path)
      rw [heq] at hpart ih
      rw [List.modifyHead_cons] at hpart
      rcases List.mem_cons.1 hpart with rfl | hpart
      · intro c hc
        rcases List.mem_cons.1 hc with rfl | hc
        · exact List.mem_cons_self
        · exact List.mem_cons_of_mem _ (ih List.mem_cons_self c hc)
      · exact fun c hc => List.mem_cons_of_mem _ (ih (List.mem_cons_of_mem _ hpart) c hc)

/-- A pattern without parameters and catch-alls is made of literals. -/
theorem key_literal {pattern segment : Text} (hparam : ':' ∉ pattern) (hwild : '*' ∉ pattern)
    (hmem : segment ∈ segments pattern) : key segment = .literal segment := by
  have hchars := splitOn_mem (List.mem_of_mem_filter hmem)
  unfold key
  split
  · exact absurd (hchars '*' List.mem_cons_self) hwild
  · exact absurd (hchars ':' List.mem_cons_self) hparam
  · rfl

theorem shape_literal {pattern : Text} (hparam : ':' ∉ pattern) (hwild : '*' ∉ pattern) :
    shape (segments pattern) = (segments pattern).map .literal := by
  refine List.map_congr_left fun segment hmem => ?_
  rw [key_literal hparam hwild hmem, Key.mark]

theorem shapes_first (path : List Text) :
    ∃ after, shapes path = path.map .literal :: after := by
  induction path with
  | nil => exact ⟨_, rfl⟩
  | cons segment rest ih =>
    obtain ⟨after, heq⟩ := ih
    rw [shapes, heq]
    exact ⟨_, rfl⟩

/-- No method has a blank. -/
def Tokens (router : Router) (method : Text) : Prop :=
  ' ' ∉ method ∧ ∀ route ∈ router.routes, ' ' ∉ route.method

section Static

variable {router : Router} (hinv : Inv router) {method path : Text}
include hinv

theorem static_route (htokens : Tokens router method) {route : Route}
    (hstatic : router.static method path = some route) :
    route ∈ router.routes ∧ Answers method route ∧ route.pattern = path ∧
      ':' ∉ path ∧ '*' ∉ path := by
  have hread : ∀ m, ' ' ∉ m → OrderedMap.get (· == ·) router.staticRoutes (m ++ ' ' :: path) =
      some route → route ∈ router.routes ∧ route.method = m ∧ route.pattern = path ∧
        ':' ∉ path ∧ '*' ∉ path := by
    intro m hm hget
    obtain ⟨hmem, hplain, htext⟩ := hinv.static _ _ hget
    obtain ⟨rfl, rfl⟩ := Separated.parts_inj hm (htokens.2 route hmem) htext
    exact ⟨hmem, rfl, rfl, hplain⟩
  rw [Router.static] at hstatic
  cases hown : OrderedMap.get (· == ·) router.staticRoutes (method ++ ' ' :: path) with
  | some own =>
    rw [hown] at hstatic
    obtain rfl := Option.some.inj hstatic
    obtain ⟨hmem, hmethod, h⟩ := hread method htokens.1 hown
    exact ⟨hmem, .inl hmethod, h⟩
  | none =>
    rw [hown] at hstatic
    simp only at hstatic
    split at hstatic
    · next hhead =>
      obtain ⟨hmem, hmethod, h⟩ := hread GET (by decide) hstatic
      exact ⟨hmem, .inr ⟨hhead, hmethod⟩, h⟩
    · cases hstatic

omit hinv in
/-- The most specific shape of a path is that of the static route with its own text. -/
theorem static_top {route : Route} (hmem : route ∈ router.routes) (hpattern : route.pattern = path)
    (hparam : ':' ∉ path) (hwild : '*' ∉ path) :
    top router.routes path = some route.shape ∧
      ∃ after, shapes (segments path) = route.shape :: after := by
  have hshape : route.shape = (segments path).map .literal := by
    rw [Route.shape, hpattern]
    exact shape_literal hparam hwild
  obtain ⟨after, hshapes⟩ := shapes_first (segments path)
  rw [top, hshapes, List.find?_cons_of_pos, hshape]
  · exact ⟨rfl, after, rfl⟩
  · exact List.any_eq_true.2 ⟨route, hmem, by simpa using hshape⟩

/-- A match is right exactly where the shape that the search ends at has what it has to. -/
theorem right_iff (upper : Text → Text) (method path : Text)
    (htokens : Tokens router (upper method)) :
    Right router.routes (upper method) path (router.matchPath upper method path) ↔
      Clear router.routes (upper method) path := by
  cases hstatic : router.static (upper method) path with
  | none => exact right_of_search hinv upper method path hstatic
  | some route =>
    obtain ⟨hmem, hanswers, hpattern, hparam, hwild⟩ := static_route hinv htokens hstatic
    obtain ⟨htop, after, hshapes⟩ := static_top hmem hpattern hparam hwild
    have hresult : router.matchPath upper method path = ⟨some route, [], []⟩ := by
      rw [Router.matchPath, hstatic]
    rw [hresult]
    refine iff_of_true ⟨fun found h => ?_, fun _ => rfl, fun h => (by cases h),
      fun m h => by cases h⟩ fun marks h => ?_
    · obtain rfl := Option.some.inj h
      exact ⟨hmem, hanswers, [], after, hshapes, fun _ _ _ => List.not_mem_nil⟩
    · rw [htop] at h
      obtain rfl := Option.some.inj h
      exact .inl ⟨route, hmem, rfl, hanswers⟩

/-- A route that is found is one registered at the top shape. Its parameters are what the trie
captures there, or there are none in its pattern. -/
theorem match_found (upper : Text → Text) {method path : Text}
    (htokens : Tokens router (upper method)) {route : Route}
    (hroute : (router.matchPath upper method path).route = some route) :
    (route ∈ router.routes ∧ top router.routes path = some route.shape) ∧
    (((router.matchPath upper method path).params = [] ∧ route.pattern = path ∧
        ':' ∉ path ∧ '*' ∉ path) ∨
      (Preferred router.routes (upper method) route ∧ (router.matchPath upper method path).params =
          captures route.shape router.root (segments path) ∧
        (nodeAt route.shape router.root).isSome = true)) := by
  rw [Router.matchPath] at hroute ⊢
  cases hstatic : router.static (upper method) path with
  | some found =>
    rw [hstatic] at hroute
    obtain rfl := Option.some.inj hroute
    obtain ⟨hmem, -, hplain⟩ := static_route hinv htokens hstatic
    exact ⟨⟨hmem, (static_top hmem hplain.1 hplain.2.1 hplain.2.2).1⟩, .inl ⟨rfl, hplain⟩⟩
  | none =>
    rw [hstatic] at hroute
    simp only at hroute ⊢
    cases htop : top router.routes path with
    | none =>
      rw [find_top hinv, htop] at hroute
      cases hroute
    | some marks =>
      obtain ⟨node, hfind, hat, hhandlers⟩ := found_top hinv htop
      rw [hfind] at hroute ⊢
      simp only at hroute ⊢
      cases hhandler : node.handler (upper method) with
      | none => rw [hhandler] at hroute; cases hroute
      | some found =>
        rw [hhandler] at hroute
        obtain rfl := Option.some.inj hroute
        obtain ⟨hmem, hshape, hpreferred⟩ :=
          (handler_spec hinv (upper method) hhandlers).1 found hhandler
        subst hshape
        exact ⟨⟨hmem, rfl⟩, .inr ⟨hpreferred, rfl, by rw [hat]; rfl⟩⟩

end Static

/-- What a pattern captures of a path under its own names. -/
def own : List Text → List Text → List (Text × Text)
  | segment :: rest, path =>
      match key segment with
      | .literal _ => own rest path.tail
      | .param name => OrderedMap.put (· == ·) (own rest path.tail) name (path.headD [])
      | .wildcard name => [(name, join path)]
  | [], _ => []

/-- The trie has the names of a pattern along its shape. -/
def NamesKept : List Text → Node → Prop
  | [], _ => True
  | segment :: rest, node =>
      match key segment with
      | .literal s =>
          ∀ child, OrderedMap.get (· == ·) node.children s = some child → NamesKept rest child
      | .param name =>
          node.paramName = name ∧ ∀ child, node.param = some child → NamesKept rest child
      | .wildcard name => node.wildcardName = name

theorem shapes_cons {segment : Text} {rest : List Text} {mark : Mark} {marks : List Mark}
    (hmem : mark :: marks ∈ shapes (segment :: rest)) :
    (mark = .literal segment ∧ marks ∈ shapes rest) ∨ (mark = .param ∧ marks ∈ shapes rest) ∨
      (mark = .wildcard ∧ marks = []) := by
  simp only [shapes, List.mem_append, List.mem_map, List.mem_singleton] at hmem
  rcases hmem with (⟨m, hm, heq⟩ | ⟨m, hm, heq⟩) | heq
  · obtain ⟨rfl, rfl⟩ := List.cons.inj heq
    exact .inl ⟨rfl, hm⟩
  · obtain ⟨rfl, rfl⟩ := List.cons.inj heq
    exact .inr (.inl ⟨rfl, hm⟩)
  · obtain ⟨rfl, rfl⟩ := List.cons.inj heq
    exact .inr (.inr ⟨rfl, rfl⟩)

/-- Where the trie has a pattern's names, a search captures what the pattern does. -/
theorem captures_own {pattern path : List Text} {node : Node} (hkept : NamesKept pattern node)
    (hmatch : shape pattern ∈ shapes path) (hnode : (nodeAt (shape pattern) node).isSome = true) :
    captures (shape pattern) node path = own pattern path := by
  induction pattern generalizing path node with
  | nil => rfl
  | cons segment rest ih =>
    rw [NamesKept] at hkept
    rw [shape, List.map_cons] at hmatch hnode ⊢
    change _ :: shape rest ∈ shapes path at hmatch
    change (nodeAt (_ :: shape rest) node).isSome = true at hnode
    change captures (_ :: shape rest) node path = _
    rw [own]
    cases hkey : key segment with
    | wildcard name =>
      rw [hkey] at hkept
      simp only [Key.mark, captures]
      rw [show node.wildcardName = name from hkept]
    | literal s =>
      rw [hkey] at hkept hmatch hnode
      simp only [Key.mark] at hmatch hnode ⊢
      cases path with
      | nil => simp [shapes] at hmatch
      | cons first path =>
        rcases shapes_cons hmatch with ⟨-, hrest⟩ | ⟨hmark, -⟩ | ⟨hmark, -⟩
        · rw [nodeAt] at hnode
          rw [captures]
          cases hchild : OrderedMap.get (· == ·) node.children s with
          | none => rw [hchild] at hnode; cases hnode
          | some child =>
            rw [hchild, Option.bind_some] at hnode
            exact ih (hkept child hchild) hrest hnode
        · cases hmark
        · cases hmark
    | param name =>
      rw [hkey] at hkept hmatch hnode
      simp only [Key.mark] at hmatch hnode ⊢
      cases path with
      | nil => simp [shapes] at hmatch
      | cons first path =>
        rcases shapes_cons hmatch with ⟨hmark, -⟩ | ⟨-, hrest⟩ | ⟨hmark, -⟩
        · cases hmark
        · rw [nodeAt] at hnode
          rw [captures]
          cases hchild : node.param with
          | none => rw [hchild] at hnode; cases hnode
          | some child =>
            rw [hchild, Option.bind_some] at hnode
            simp only [List.tail_cons, List.headD_cons]
            rw [ih (hkept.2 child hchild) hrest hnode, hkept.1]
        · cases hmark

/-- A pattern made of literals captures nothing. -/
theorem own_literal {pattern path : List Text}
    (hliteral : ∀ segment ∈ pattern, key segment = .literal segment) : own pattern path = [] := by
  induction pattern generalizing path with
  | nil => rfl
  | cons segment rest ih =>
    rw [own, hliteral segment List.mem_cons_self]
    exact ih fun other hother => hliteral other (List.mem_cons_of_mem _ hother)

/-- A route's parameters are right where the trie has the names of its pattern. -/
theorem params_own {router : Router} (hinv : Inv router) (upper : Text → Text) (method path : Text)
    (htokens : Tokens router (upper method)) {route : Route}
    (hroute : (router.matchPath upper method path).route = some route)
    (hkept : Preferred router.routes (upper method) route →
      NamesKept (segments route.pattern) router.root) :
    (router.matchPath upper method path).params = own (segments route.pattern) (segments path) := by
  obtain ⟨⟨-, htop⟩, hplain | ⟨hpreferred, hparams, hnode⟩⟩ :=
    match_found hinv upper htokens hroute
  · obtain ⟨hnone, hpattern, hparam, hwild⟩ := hplain
    rw [hnone, hpattern]
    exact (own_literal fun segment hmem => key_literal hparam hwild hmem).symm
  · rw [hparams]
    exact captures_own (hkept hpreferred) (List.mem_of_find?_eq_some htop) hnode

end Zuri.Routing
