import Zuri.Http.RouterRight

/-!
Routing after any registrations, those that raise among them. It is right for a request exactly
where the most specific shape of the path that is registered for any method answers, and its
parameters have the names of the route where the trie has kept them.
-/

namespace Zuri.Routing

/-- The catch-all that a pattern ends in has the pattern's name in the trie, if an insertion comes
that far. -/
def CatchAllKept : List Text → Node → Prop
  | [], _ => True
  | segment :: rest, node =>
      match key segment with
      | .literal s =>
          ∀ child, OrderedMap.get (· == ·) node.children s = some child → CatchAllKept rest child
      | .param name =>
          name.isEmpty = false → ∀ child, node.param = some child → CatchAllKept rest child
      | .wildcard name => rest = [] → node.wildcardName = name

/-- So it is, or a registration does not come to an insertion. -/
def Router.Keeps (router : Router) (pattern : Text) (callable : Bool) : Prop :=
  callable = true → pattern.head? = some '/' → CatchAllKept (segments pattern) router.root

/-- An insertion that raises keeps what the names along a shape capture. -/
theorem captures_insert {text : Text} {route : Route} {pattern : List Text} {node : Node}
    {e : Error} (herror : (insert text route pattern node).2 = some e)
    (hkept : CatchAllKept pattern node) (marks : List Mark) (path : List Text)
    (hnode : (nodeAt marks node).isSome = true) :
    captures marks (insert text route pattern node).1 path = captures marks node path := by
  induction pattern generalizing node marks path with
  | nil =>
    rw [insert] at herror ⊢
    split at herror
    · next hheld => rw [if_pos hheld]
    · cases herror
  | cons segment rest ih =>
    rw [insert] at herror ⊢
    rw [CatchAllKept] at hkept
    cases hkey : key segment with
    | wildcard name =>
      simp only [hkey] at herror hkept ⊢
      split
      · rfl
      · next hlast =>
        cases marks with
        | nil => rfl
        | cons mark marks =>
          cases mark with
          | wildcard => rw [captures, captures, hkept (Decidable.not_not.mp hlast)]
          | literal s => cases path <;> rfl
          | param => cases path <;> rfl
    | param name =>
      simp only [hkey] at herror hkept ⊢
      split
      · rfl
      · next hnamed =>
        rw [if_neg hnamed] at herror
        cases marks with
        | nil => rfl
        | cons mark marks =>
          cases mark with
          | wildcard => rfl
          | literal s => cases path <;> rfl
          | param =>
            cases path with
            | nil => rfl
            | cons first path =>
              cases hchild : node.param with
              | none => simp [nodeAt, hchild] at hnode
              | some child =>
                rw [nodeAt, hchild, Option.bind_some] at hnode
                rw [hchild, Option.getD_some] at herror
                simp only [captures, hchild, Option.getD_some, Option.isNone_some,
                  Bool.false_eq_true, if_false]
                have hkept := hkept (Bool.eq_false_iff.mpr hnamed) child hchild
                rw [ih herror hkept marks path hnode]
    | literal own =>
      simp only [hkey] at herror hkept ⊢
      cases marks with
      | nil => rfl
      | cons mark marks =>
        cases mark with
        | wildcard => rfl
        | param => cases path <;> rfl
        | literal s =>
          cases path with
          | nil => rfl
          | cons first path =>
            rw [captures, captures, OrderedMap.get_put]
            by_cases hs : own = s
            · subst hs
              rw [if_pos (beq_self_eq_true own)]
              cases hchild : OrderedMap.get (· == ·) node.children own with
              | none => simp [nodeAt, hchild] at hnode
              | some child =>
                rw [nodeAt, hchild, Option.bind_some] at hnode
                rw [hchild, Option.getD_some] at herror
                simp only [Option.getD_some]
                exact ih herror (hkept child hchild) marks path hnode
            · rw [if_neg (by simpa using hs)]

/-- The root after a registration that raises is that after the insertion, or the root there was. -/
theorem add_root {upper : Text → Text} {router : Router} {method pattern : Text} {callable : Bool}
    {e : Error} (herror : (router.add upper method pattern callable).2 = some e) :
    (router.add upper method pattern callable).1.root = router.root ∨
      (callable = true ∧ pattern.head? = some '/' ∧
        (insert pattern ⟨upper method, pattern⟩ (segments pattern) router.root).2 = some e ∧
        (router.add upper method pattern callable).1.root =
          (insert pattern ⟨upper method, pattern⟩ (segments pattern) router.root).1) := by
  rw [Router.add] at herror ⊢
  split at herror
  · next hcallable =>
    rw [if_pos hcallable]
    exact .inl rfl
  · next hcallable =>
    rw [if_neg hcallable]
    split at herror
    · next hslash =>
      rw [if_pos hslash]
      exact .inl rfl
    · next hslash =>
      rw [if_neg hslash]
      cases hinsert : (insert pattern ⟨upper method, pattern⟩ (segments pattern) router.root).2 with
      | none => simp [hinsert] at herror
      | some e' =>
        simp only [hinsert] at herror ⊢
        exact .inr ⟨by simpa using hcallable, Decidable.not_not.mp hslash, herror, trivial⟩

section Failed

variable {router : Router} (hinv : Inv router) {upper : Text → Text} {method pattern : Text}
  {callable : Bool} {e : Error} (herror : (router.add upper method pattern callable).2 = some e)
include hinv herror

/-- What a search finds before and after. -/
theorem find_failed (path : Text) :
    (router.root.find (segments path) = none ∧
      (router.add upper method pattern callable).1.root.find (segments path) = none) ∨
    ∃ node node' params params', router.root.find (segments path) = some (node, params) ∧
      (router.add upper method pattern callable).1.root.find (segments path) =
        some (node', params') ∧ node'.handlers = node.handlers ∧
      (router.Keeps pattern callable → params' = params) := by
  obtain ⟨hroutes, -, hhandlers⟩ := add_error herror
  have hafter := hinv.add upper method pattern callable
  have htop' : top (router.add upper method pattern callable).1.routes path =
      top router.routes path := by rw [hroutes]
  cases htop : top router.routes path with
  | none =>
    rw [htop] at htop'
    refine .inl ⟨?_, ?_⟩
    · rw [find_top hinv, htop, Option.bind_none]
    · rw [find_top hafter, htop', Option.bind_none]
  | some marks =>
    rw [htop] at htop'
    obtain ⟨node, hfind, hat, hheld⟩ := found_top hinv htop
    obtain ⟨node', hfind', hat', hheld'⟩ := found_top hafter htop'
    refine .inr ⟨node, node', _, _, hfind, hfind', ?_, fun hkept => ?_⟩
    · rw [hheld', hhandlers, hheld]
    · rcases add_root herror with hroot | ⟨hcallable, hslash, hinsert, hroot⟩
      · rw [hroot]
      · rw [hroot]
        exact captures_insert hinsert (hkept hcallable hslash) marks _ (by rw [hat]; rfl)

/-- Every request has the route and the methods it had, and its parameters where the catch-all of
the pattern keeps its name. -/
theorem match_failed (request path : Text) :
    ((router.add upper method pattern callable).1.matchPath upper request path).route =
        (router.matchPath upper request path).route ∧
      ((router.add upper method pattern callable).1.matchPath upper request path).allowed =
        (router.matchPath upper request path).allowed ∧
      (router.Keeps pattern callable →
        ((router.add upper method pattern callable).1.matchPath upper request path).params =
          (router.matchPath upper request path).params) := by
  obtain ⟨-, htable, -⟩ := add_error herror
  have hstatic : (router.add upper method pattern callable).1.static (upper request) path =
      router.static (upper request) path := by
    rw [Router.static, Router.static, htable]
  rw [Router.matchPath, Router.matchPath, hstatic]
  cases router.static (upper request) path with
  | some route => exact ⟨rfl, rfl, fun _ => rfl⟩
  | none =>
    rcases find_failed hinv herror path with ⟨hbefore, hafter⟩ |
      ⟨node, node', params, params', hbefore, hafter, hhandlers, hparams⟩
    · simp only [hbefore, hafter]
      exact ⟨trivial, trivial, fun _ => trivial⟩
    · have hhandler : node'.handler (upper request) = node.handler (upper request) := by
        rw [Node.handler, Node.handler, hhandlers]
      have hallowed : allowed node' = allowed node := by rw [allowed, allowed, hhandlers]
      simp only [hbefore, hafter, hhandler, hallowed]
      cases node.handler (upper request) with
      | some route => exact ⟨rfl, rfl, hparams⟩
      | none => exact ⟨rfl, rfl, hparams⟩

end Failed

/-- What a match is to answer, the parameters included. -/
def Answered (router : Router) (method path : Text) (result : RouteMatch) : Prop :=
  Right router.routes method path result ∧ ∀ route, result.route = some route →
    result.params = own (segments route.pattern) (segments path)

/-- The route for the method at the shape that the search ends at has its names along it. -/
def Named (router : Router) (method path : Text) : Prop :=
  ∀ route ∈ router.routes, top router.routes path = some route.shape →
    Preferred router.routes method route → NamesKept (segments route.pattern) router.root

/-- What is to hold of a router: its matches are right, and a registration that raises leaves
them. -/
def Routes (upper : Text → Text) (router : Router) : Prop :=
  (∀ method path, Answered router (upper method) path (router.matchPath upper method path)) ∧
    ∀ method pattern callable e, (router.add upper method pattern callable).2 = some e →
      ∀ request path, (router.add upper method pattern callable).1.matchPath upper request path =
        router.matchPath upper request path

def show_user : Call := ⟨GET, "/users/:id".toList, true⟩

def new_user : Call := ⟨"POST".toList, "/users/new".toList, true⟩

end Zuri.Routing
