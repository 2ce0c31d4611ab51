import AppAtlas.Distinct
import AppAtlas.Resolve.Similarity
import AppAtlas.Resolve.View

/-! # Searching a target

What a reference points at is searched in three ranks. A definition with the identity that the
target names is an *exact* match. Failing that, definitions that share its name match by *name*.
Failing that, definitions that resemble it match by *similarity*, and only the most similar count.
The referring definition never matches itself by name or similarity.
-/

namespace AppAtlas

inductive Rank where
  | exact
  | name
  | fuzzy
deriving DecidableEq, Repr

/-- The definitions that match a target at the best rank that has any. -/
structure Matches (κ : Type) where
  rank : Rank
  nodes : List Node
  /-- The similarity they share, one unless the rank is `fuzzy`. -/
  similarity : κ

/-! ### Names -/

def TypeRef.fullNames (t : TypeRef) : List String :=
  if t.candidates.isEmpty then [t.name] else t.candidates

def tableName (name : String) : String := Text.lowerString (lastPart name)

def namespaceOf? (id : String) : Option (List Char) :=
  (Text.segments (· == '.') id.toList).dropLast.getLast?

def Target.expectedSignature : Target → String
  | member owner name arity _ =>
    let base := owner.elim name fun t => t.primary ++ "." ++ name
    arity.elim base fun n => base ++ "/" ++ toString n
  | type t _ => t.primary
  | route path _ => "route:" ++ Route.normalize path
  | resource path => path
  | statement id => id
  | table name => tableName name
  | tablePattern pattern => Text.lowerString pattern
  | column owner name candidates =>
    ((owner <|> candidates.head?).map tableName).getD "?" ++ "." ++ Text.lowerString name

/-! ### Tests on nodes -/

/-- Whether a method has a number of parameters, if that is asked for. -/
def Node.hasArity (n : Node) (arity : Option Nat) : Bool :=
  match arity with
  | none => true
  | some a =>
    match Text.cutLast '/' n.signature.toList with
    | some (_, count) => (readNatural 10 (Nat.pow 2 64) count).toOption == some a
    | none => false

/-- Whether a method answers a request verb. Methods that name no verb answer all. -/
def Node.acceptsVerb (n : Node) (verb : Option String) : Bool :=
  match verb, (n.attribute? verbsKey).map fun v => Text.trim v.toList with
  | none, _ => true
  | some _, none => true
  | some _, some [] => true
  | some v, some verbs =>
    (Text.segments (· == ',') verbs).any fun w => Text.sameLetters (Text.trim w) v.toList

/-! ### Matches of a rank -/

structure Search (κ : Type) where
  view : View κ
  exclude : NodeId
  minSimilarity : κ

namespace Search

variable {κ : Type} [Confidence κ]

def exactly? (nodes : List Node) : Option (Matches κ) :=
  if nodes.isEmpty then none else some ⟨.exact, nodes, 1.0⟩

def tidy (nodes : List Node) : List Node := Node.sorted (distinctOn (·.id) nodes)

def named? (s : Search κ) (nodes : List Node) : Option (Matches κ) :=
  let kept := tidy (nodes.filter (·.id != s.exclude))
  if kept.isEmpty then none else some ⟨.name, kept, 1.0⟩

/-- Similarities that differ by less count as equal. -/
def tolerance : κ := 1e-9

/-- Matches by similarity: of those that are similar enough, the most similar. -/
def fuzzy? (s : Search κ) (scored : List (Node × κ)) : Option (Matches κ) :=
  let enough := scored.filter fun (n, x) => n.id != s.exclude && s.minSimilarity ≤ x
  let best := (enough.map (·.2)).foldl Confidence.max 0.0
  let kept := tidy ((enough.filter fun (_, x) => Confidence.size (best - x) < tolerance).map (·.1))
  if kept.isEmpty then none else some ⟨.fuzzy, kept, best⟩

/-! ### Targets of each kind -/

/-- The similarity of a method with another number of parameters. -/
def otherArity : κ := 0.6

def exactMembers? (s : Search κ) (hits : List Node) (owner : TypeRef) (member : String)
    (arity : Option Nat) : Option (Matches κ) :=
  owner.fullNames.findSome? fun full =>
    exactly? <|
      match arity with
      | some n =>
        ((s.view.node? (NodeId.of .serviceMethod (methodSignature full member n))).filter
          (·.kind.isMethod)).toList
      | none =>
        hits.filter fun n =>
          n.attribute? Node.ownerKey == some full && displayName n.signature == member

def memberAmong (s : Search κ) (hits : List Node) (owner : Option TypeRef) (member : String)
    (arity : Option Nat) (kinds : List NodeKind) : Option (Matches κ) :=
  let fitting := hits.filter fun n => n.kind.isMethod && (kinds.isEmpty || kinds.contains n.kind)
  let named := fitting.filter fun n => displayName n.signature == member && n.hasArity arity
  owner.bind (s.exactMembers? hits · member arity)
    <|> owner.bind (fun t =>
      s.named? (named.filter fun n =>
        (n.attribute? Node.ownerKey).any fun o => lastPart o == t.simpleName))
    <|> s.named? named
    <|> s.fuzzy? (fitting.map fun n => (n, if n.hasArity arity then 1.0 else otherArity))

def typeAmong (s : Search κ) (hits : List Node) (t : TypeRef) : Option (Matches κ) :=
  let types := hits.filter (·.kind.isType)
  t.fullNames.findSome? (fun full =>
      exactly? ((s.view.node? (NodeId.of .service full)).filter (·.kind.isType)).toList)
    <|> s.named? (types.filter fun n => lastPart n.signature == t.simpleName)
    <|> s.fuzzy? (types.map fun n => (n, 1.0))

/-- The matches of a route, exact or by name, among the methods that answer its stem. -/
def routeAmong (s : Search κ) (hits : List Node) (route : String) (verb : Option String) :
    Option (Matches κ) :=
  let accepting := hits.filter (·.acceptsVerb verb)
  exactly? (accepting.filter (·.routes.contains route))
    <|> s.named? (if accepting.isEmpty then hits else accepting)

/-- How well a method fits a request: the greatest similarity of its routes. -/
def routeScore? (n : Node) (route : String) (relative : Bool) : Option κ :=
  match n.routes.filterMap (Route.similarity? route · relative) with
  | [] => none
  | x :: xs => some (xs.foldl Confidence.max x)

def similarRoutes? (s : Search κ) (pool : List Node) (route : String) (verb : Option String)
    (relative : Bool) : Option (Matches κ) :=
  s.fuzzy? ((pool.filter (·.acceptsVerb verb)).filterMap fun n =>
    (routeScore? n route relative).map (n, ·))

def pageAmong (s : Search κ) (hits : List Node) (path : String) : Option (Matches κ) :=
  exactly? ((s.view.node? (NodeId.of .page path)).filter fun n =>
      n.kind == .page || n.kind == .fragment).toList
    <|> s.named? (hits.filter fun n => displayName n.signature == displayName path)
    <|> s.fuzzy? (hits.map fun n => (n, trailingSimilarity path n.signature))

def otherNamespace : κ := 0.5

/-- Whether two statements have namespaces of one name, in letters of either case. -/
def sameNamespace (a b : String) : Bool :=
  match namespaceOf? a, namespaceOf? b with
  | some x, some y => Text.sameLetters x y
  | _, _ => false

def statementAmong (s : Search κ) (hits : List Node) (id : String) : Option (Matches κ) :=
  let named := hits.filter fun n => lastPart n.signature == lastPart id
  exactly? ((s.view.node? (NodeId.of .statement id)).filter (·.kind == .statement)).toList
    <|> s.named? (named.filter fun n =>
      (namespaceOf? id).isSome && namespaceOf? n.signature == namespaceOf? id)
    <|> s.named? named
    <|> s.fuzzy? (hits.map fun n =>
      (n, if sameNamespace id n.signature then 1.0 else otherNamespace))

def tableMatch (s : Search κ) (name : String) : Option (Matches κ) :=
  exactly? ((s.view.node? (NodeId.of .table (tableName name))).filter (·.kind == .table)).toList

def patternAmong (s : Search κ) (tables : List Node) (pattern : TablePattern) :
    Option (Matches κ) :=
  s.fuzzy? (tables.filterMap fun t => (pattern.similarity? t.signature).map (t, ·))

def columnAmong (s : Search κ) (hits : List Node) (table : Option String) (name : String)
    (candidates : List String) : Option (Matches κ) :=
  let tables := (table.toList ++ candidates).map tableName
  tables.findSome? (fun t =>
      exactly? ((s.view.node? (NodeId.of .column (t ++ "." ++ Text.lowerString name))).filter
        (·.kind == .column)).toList)
    <|> s.named? (hits.filter fun n =>
      (Text.cutLast '.' n.signature.toList).any fun (t, _) => tables.contains (String.ofList t))
    <|> s.named? hits

/-! ### The search -/

/-- The matches of a route. The routes of other stems are looked at only when none of the same stem
matches. -/
def route (s : Search κ) (path : String) (verb : Option String) (relative : Bool) :
    Consulting (Option (Matches κ)) := do
  let route := Route.normalize path
  let hits ← s.view.lookup (.route (Route.stem route))
  match s.routeAmong hits route verb with
  | some m => pure (some m)
  | none =>
    let tail := Route.tail route
    let alike ← s.view.lookup
      (if tail = Route.templateTail then .kind .controllerMethod else .routeTail tail)
    let templates ← s.view.lookup (.routeTail Route.templateTail)
    pure (s.similarRoutes? (alike ++ templates) route verb relative)

/-- The matches of a target. `relative` says that a route is relative to the page. -/
def find (s : Search κ) (target : Target) (relative : Bool) : Consulting (Option (Matches κ)) := do
  match target with
  | .member owner member arity kinds =>
    let hits ← s.view.lookup (.member (Text.lowerString member))
    pure (s.memberAmong hits owner member arity kinds)
  | .type t _ =>
    let hits ← s.view.lookup (.type (Text.lowerString t.simpleName))
    pure (s.typeAmong hits t)
  | .route path verb => s.route path verb relative
  | .resource path =>
    let hits ← s.view.lookup (.page (Text.lowerString (displayName path)))
    pure (s.pageAmong hits path)
  | .statement id =>
    let hits ← s.view.lookup (.statement (Text.lowerString (lastPart id)))
    pure (s.statementAmong hits id)
  | .table name =>
    consult (.table (tableName name))
    pure (s.tableMatch name)
  | .tablePattern text =>
    match TablePattern.parse? text with
    | some pattern =>
      let tables ← s.view.lookup (.kind .table)
      pure (s.patternAmong tables pattern)
    | none => pure none
  | .column table name candidates =>
    let hits ← s.view.lookup (.column (Text.lowerString name))
    pure (s.columnAmong hits table name candidates)

end Search

end AppAtlas
