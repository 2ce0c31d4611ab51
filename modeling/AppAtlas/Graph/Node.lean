import AppAtlas.Finding
import AppAtlas.Identity

/-! # Nodes

A node is something of the application: a page, a class, a method, a statement, a table, a column. A
*stub* stands for something that is referred to and not seen; it has the identity that its
definition would have, so that the definition takes its place. A *marker* is a stub that records a
parse problem.
-/

namespace AppAtlas

/-- The short name of a signature: without a trailing parameter count, what follows the last slash,
or the last dot when there is no slash. -/
def displayChars (signature : List Char) : List Char :=
  let base :=
    match Text.cutLast '/' signature with
    | some (head, count) =>
      if !count.isEmpty && count.all Char.isDigit then head else signature
    | none => signature
  let name := Text.afterLast (if base.contains '/' then '/' else '.') base
  if name.isEmpty then base else name

def displayName (signature : String) : String := Text.onString displayChars signature

def lastPart (name : String) : String := Text.onString (Text.afterLast '.') name

structure Node where
  id : NodeId
  kind : NodeKind
  file : Option String
  lines : LineRange
  signature : String
  name : String
  attributes : Attributes
deriving DecidableEq

namespace Node

/-! ### Names of attributes -/

/-- The kind a stub's definition would have. -/
def expectedKindKey : String := "expected_kind"

def referenceKey : String := "reference"

def errorKey : String := "error"

/-- The package or web directory of a node's file. -/
def scopeKey : String := "scope"

def ownerKey : String := "owner"

/-- The web routes a method answers, with commas between. -/
def routesKey : String := "routes"

/-- The request verbs a method answers, with commas between. -/
def verbsKey : String := "http_methods"

/-! ### Making nodes -/

def stub (expected : NodeKind) (signature reference : String) : Node where
  id := NodeId.of expected signature
  kind := .stub
  file := none
  lines := ⟨0, 0⟩
  signature := signature
  name := displayName signature
  attributes := Std.ExtTreeMap.ofList [(expectedKindKey, expected.name), (referenceKey, reference)]

def marker (path : String) (line : Nat) (message : String) : Node where
  id := NodeId.of .stub (markerSignature path line)
  kind := .stub
  file := some path
  lines := LineRange.line line
  signature := markerSignature path line
  name := markerSignature path line
  attributes := Std.ExtTreeMap.ofList [(errorKey, message)]

/-! ### Looking at nodes -/

def attribute? (n : Node) (key : String) : Option String := n.attributes.get? key

def isStub (n : Node) : Bool := n.kind == .stub

def isMarker (n : Node) : Bool := n.isStub && n.attributes.contains errorKey

def isConcrete (n : Node) : Bool := !n.isStub

/-- The kind a stub's definition would have. -/
def expectedKind? (n : Node) : Option NodeKind := (n.attribute? expectedKindKey).bind NodeKind.parse?

def expectedId (n : Node) : NodeId :=
  NodeId.of (if n.isStub then n.expectedKind?.getD .stub else n.kind) n.signature

/-- The package or web directory of a node's file. -/
def scope? (n : Node) : Option String := n.attribute? scopeKey

/-- The values of a list attribute: what stands between commas, without white space around and
without empty values. -/
def listed (n : Node) (key : String) : List (List Char) :=
  match n.attribute? key with
  | some text =>
    ((Text.segments (· == ',') text.toList).map Text.trim).filter fun v => !v.isEmpty
  | none => []

def sorted (nodes : List Node) : List Node :=
  nodes.mergeSort fun a b => (compare a.id b.id).isLE

/-- The web routes a node answers, in normal form. -/
def routes (n : Node) : List String :=
  (n.listed routesKey).map fun r => String.ofList (Route.normalizeChars r)

end Node

end AppAtlas
