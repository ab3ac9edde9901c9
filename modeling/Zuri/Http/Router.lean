import Zuri.Maps.Ordered

/-!
The router of the HTTP server: a trie of the segments of patterns, a table of the patterns without
parameters, and the search of a path in them. What `upper` makes of a method is given.
A search goes through the shapes that a path has, the most specific first, and ends at the first
that is registered for any method.
-/

namespace Zuri.Routing

abbrev Text := List Char

structure Route where
  method : Text
  pattern : Text
  deriving DecidableEq

structure Node where
  children : List (Text × Node) := []
  param : Option Node := none
  paramName : Text := []
  wildcard : Option Node := none
  wildcardName : Text := []
  handlers : List (Text × Route) := []

structure Router where
  root : Node := {}
  routes : List Route := []
  staticRoutes : List (Text × Route) := []

inductive Error where
  | type (message : String)
  | http (message : String)

/-- `_split`. -/
def segments (path : Text) : List Text := (path.splitOn '/').filter (!·.isEmpty)

/-- A segment of a pattern. -/
inductive Key where
  | literal (segment : Text)
  | param (name : Text)
  | wildcard (name : Text)

/-- What a segment of a pattern is, if it may stand there. -/
def key (segment : Text) : Key :=
  match segment with
  | '*' :: name => .wildcard (if name.isEmpty then "path".toList else name)
  | ':' :: name => .param name
  | segment => .literal segment

/-- The loop of `add` over the segments of a pattern and what follows it: the node after it, and
the error if one is raised. Nodes that are made on the way stay. -/
def insert (pattern : Text) (route : Route) : List Text → Node → Node × Option Error
  | [], node =>
      if (OrderedMap.get (· == ·) node.handlers route.method).isSome then
        (node, some (.http
          (String.ofList (route.method ++ ' ' :: pattern) ++ " is already registered")))
      else
        ({ node with handlers := OrderedMap.put (· == ·) node.handlers route.method route }, none)
  | segment :: rest, node =>
      match key segment with
      | .wildcard name =>
          if rest ≠ [] then
            (node, some (.http ("a catch-all may only be the last segment: " ++
              String.ofList pattern)))
          else
            let after := insert pattern route rest (node.wildcard.getD {})
            ({ node with wildcard := some after.1, wildcardName := name }, after.2)
      | .param name =>
          if name.isEmpty then
            (node, some (.http ("a route parameter must be named: " ++ String.ofList pattern)))
          else
            let after := insert pattern route rest (node.param.getD {})
            ({ node with
              param := some after.1
              paramName := if node.param.isNone then name else node.paramName }, after.2)
      | .literal segment =>
          let after := insert pattern route rest
            ((OrderedMap.get (· == ·) node.children segment).getD {})
          ({ node with children := OrderedMap.put (· == ·) node.children segment after.1 }, after.2)


/-- `add`, of a route with a handler: the router after it, and the error if one is raised. -/
def Router.add (upper : Text → Text) (router : Router) (method pattern : Text) (callable : Bool) :
    Router × Option Error :=
  if !callable then (router, some (.type "handler must be callable"))
  else if pattern.head? ≠ some '/' then
    (router, some (.http ("route pattern must start with \"/\": " ++ String.ofList pattern)))
  else
    let route : Route := ⟨upper method, pattern⟩
    let after := insert pattern route (segments pattern) router.root
    match after.2 with
    | some e => ({ router with root := after.1 }, some e)
    | none =>
        ({ root := after.1
           routes := router.routes ++ [route]
           staticRoutes :=
             if !pattern.contains ':' && !pattern.contains '*' then
               OrderedMap.put (· == ·) router.staticRoutes (route.method ++ ' ' :: pattern) route
             else router.staticRoutes }, none)

/-- `'/'.join(rest)`. -/
def join (parts : List Text) : Text := ['/'].intercalate parts

/-- A node's catch-all, when it answers, with what it captures. -/
def Node.catchAll (node : Node) (rest : List Text) : Option (Node × List (Text × Text)) :=
  match node.wildcard with
  | some wildcard =>
      if wildcard.handlers.isEmpty then none
      else some (wildcard, [(node.wildcardName, join rest)])
  | none => none

/-- `_find`, and the parameters it sets. -/
def Node.find : List Text → Node → Option (Node × List (Text × Text))
  | [], node => if node.handlers.isEmpty then node.catchAll [] else some (node, [])
  | segment :: rest, node =>
      match (OrderedMap.get (· == ·) node.children segment).bind (Node.find rest) with
      | some found => some found
      | none =>
          match node.param.bind (Node.find rest) with
          | some found =>
              some (found.1, OrderedMap.put (· == ·) found.2 node.paramName segment)
          | none => node.catchAll (segment :: rest)

structure RouteMatch where
  route : Option Route
  params : List (Text × Text)
  allowed : List Text

def HEAD : Text := "HEAD".toList

def GET : Text := "GET".toList

def OPTIONS : Text := "OPTIONS".toList

/-- The methods a `405` reports for a node. -/
def allowed (node : Node) : List Text :=
  let methods := node.handlers.map Prod.fst
  let methods :=
    if methods.contains GET && !methods.contains HEAD then methods ++ [HEAD] else methods
  if !methods.isEmpty && !methods.contains OPTIONS then methods ++ [OPTIONS] else methods

/-- The entry of the table of static routes that answers. -/
def Router.static (router : Router) (method path : Text) : Option Route :=
  match OrderedMap.get (· == ·) router.staticRoutes (method ++ ' ' :: path) with
  | some route => some route
  | none =>
      if method = HEAD then OrderedMap.get (· == ·) router.staticRoutes (GET ++ ' ' :: path)
      else none

/-- The handler of a node that answers. -/
def Node.handler (node : Node) (method : Text) : Option Route :=
  match OrderedMap.get (· == ·) node.handlers method with
  | some route => some route
  | none => if method = HEAD then OrderedMap.get (· == ·) node.handlers GET else none

/-- `match`. -/
def Router.matchPath (upper : Text → Text) (router : Router) (method path : Text) : RouteMatch :=
  match router.static (upper method) path with
  | some route => ⟨some route, [], []⟩
  | none =>
      match Node.find (segments path) router.root with
      | none => ⟨none, [], []⟩
      | some (node, params) =>
          match node.handler (upper method) with
          | some route => ⟨some route, params, []⟩
          | none => ⟨none, params, allowed node⟩

/-- What a segment of a pattern is, its name aside. -/
inductive Mark where
  | literal (segment : Text)
  | param
  | wildcard
  deriving DecidableEq

def Key.mark : Key → Mark
  | .literal segment => .literal segment
  | .param _ => .param
  | .wildcard _ => .wildcard

/-- The shape of a pattern. -/
def shape (pattern : List Text) : List Mark := pattern.map fun segment => (key segment).mark

/-- The shapes of patterns that match a path. They are compared segment by segment, a literal before
a parameter before a catch-all, and the first comes first. -/
def shapes : List Text → List (List Mark)
  | [] => [[], [.wildcard]]
  | segment :: rest =>
      (shapes rest).map (.literal segment :: ·) ++ (shapes rest).map (.param :: ·) ++ [[.wildcard]]

/-- The node of a shape. -/
def nodeAt : List Mark → Node → Option Node
  | [], node => some node
  | .literal segment :: rest, node =>
      (OrderedMap.get (· == ·) node.children segment).bind (nodeAt rest)
  | .param :: rest, node => node.param.bind (nodeAt rest)
  | .wildcard :: rest, node => node.wildcard.bind (nodeAt rest)

/-- The handlers of a shape. -/
def handlersAt (marks : List Mark) (node : Node) : List (Text × Route) :=
  ((nodeAt marks node).map Node.handlers).getD []

/-- What the names in the trie along a shape capture of a path. -/
def captures : List Mark → Node → List Text → List (Text × Text)
  | .literal segment :: rest, node, _ :: path =>
      match OrderedMap.get (· == ·) node.children segment with
      | some child => captures rest child path
      | none => []
  | .param :: rest, node, segment :: path =>
      match node.param with
      | some child =>
          OrderedMap.put (· == ·) (captures rest child path) node.paramName segment
      | none => []
  | .wildcard :: _, node, path => [(node.wildcardName, join path)]
  | _, _, _ => []

/-- What a search finds at a shape. -/
def foundAt (node : Node) (path : List Text) (marks : List Mark) :
    Option (Node × List (Text × Text)) :=
  match nodeAt marks node with
  | some found =>
      if found.handlers.isEmpty then none else some (found, captures marks node path)
  | none => none

theorem catchAll_eq (node : Node) (path : List Text) :
    node.catchAll path = foundAt node path [.wildcard] := by
  rw [Node.catchAll, foundAt]
  cases hw : node.wildcard with
  | none => simp [nodeAt, hw]
  | some wildcard => simp [nodeAt, hw, captures]

theorem findSome_map {α β γ : Type} (f : α → Option β) (g : β → γ) (l : List α) :
    l.findSome? (fun a => (f a).map g) = (l.findSome? f).map g := by
  induction l with
  | nil => rfl
  | cons a l ih =>
    rw [List.findSome?_cons, List.findSome?_cons]
    cases f a with
    | none => exact ih
    | some b => rfl

/-- The search ends at the first shape of the path that is registered. -/
theorem find_eq (path : List Text) (node : Node) :
    node.find path = (shapes path).findSome? (foundAt node path) := by
  induction path generalizing node with
  | nil =>
    rw [Node.find, shapes, List.findSome?_cons, List.findSome?_cons, List.findSome?_nil,
      ← catchAll_eq]
    cases hh : node.handlers.isEmpty with
    | true =>
      have hnone : foundAt node [] [] = none := by simp [foundAt, nodeAt, hh]
      rw [hnone]
      cases node.catchAll [] <;> rfl
    | false =>
      have hsome : foundAt node [] [] = some (node, []) := by
        simp [foundAt, nodeAt, hh, captures]
      rw [hsome]
      rfl
  | cons segment rest ih =>
    have hliteral : (shapes rest).findSome?
        (foundAt node (segment :: rest) ∘ (.literal segment :: ·)) =
          (OrderedMap.get (· == ·) node.children segment).bind (Node.find rest) := by
      cases hchild : OrderedMap.get (· == ·) node.children segment with
      | none =>
        rw [Option.bind_none, List.findSome?_eq_none_iff]
        intro marks _
        simp [foundAt, nodeAt, hchild]
      | some child =>
        rw [Option.bind_some, ih child]
        congr 1
        funext marks
        simp [foundAt, nodeAt, hchild, captures]
    have hparam : (shapes rest).findSome? (foundAt node (segment :: rest) ∘ (.param :: ·)) =
        (node.param.bind (Node.find rest)).map fun found =>
          (found.1, OrderedMap.put (· == ·) found.2 node.paramName segment) := by
      cases hchild : node.param with
      | none =>
        rw [Option.bind_none, Option.map_none, List.findSome?_eq_none_iff]
        intro marks _
        simp [foundAt, nodeAt, hchild]
      | some child =>
        rw [Option.bind_some, ih child, ← findSome_map]
        congr 1
        funext marks
        simp only [Function.comp, foundAt, nodeAt, hchild, Option.bind_some, captures]
        cases nodeAt marks child with
        | none => rfl
        | some found =>
          simp only
          split <;> rfl
    rw [Node.find, shapes, List.findSome?_append, List.findSome?_append, List.findSome?_map,
      List.findSome?_map, hliteral, hparam, List.findSome?_cons, List.findSome?_nil, catchAll_eq]
    cases (OrderedMap.get (· == ·) node.children segment).bind (Node.find rest) with
    | some found => rfl
    | none =>
      cases node.param.bind (Node.find rest) with
      | some found => rfl
      | none =>
        cases foundAt node (segment :: rest) [.wildcard] <;> rfl

end Zuri.Routing
