import AppAtlas.Distinct
import AppAtlas.Query.Filter

/-! # Cycles

The elementary cycles along the edges that a filter lets pass, each written from its smallest node.
They are searched component by component, a component being the nodes that reach each other, and
from each node of a component through greater nodes only, so that each cycle is met once.
-/

namespace AppAtlas

structure CycleLimits where
  maxLength : Nat
  maxCycles : Nat
deriving DecidableEq, Repr

structure CycleReport where
  /-- The nodes of each cycle, cycles in lexicographic order. -/
  cycles : List (List NodeId)
  truncated : Bool
deriving DecidableEq

namespace CycleReport

variable {κ : Type} [Confidence κ]

/-- Whether cycles may go along an edge: its kind is allowed and its confidence is not below the
floor. -/
def passes (f : EdgeFilter κ) (e : Edge κ) : Bool :=
  f.allowsKind e.kind && !decide (e.confidence < f.minConfidence)

/-- The nodes that an edge leads to along which cycles may go, by identity. -/
def successors (g : Graph κ) (f : EdgeFilter κ) (id : NodeId) : List NodeId :=
  sortedSet (((g.outgoing id).filter (passes f)).map (·.target))

/-- The nodes at either end of an edge along which cycles may go, by identity. -/
def nodes (g : Graph κ) (f : EdgeFilter κ) : List NodeId :=
  sortedSet ((g.edgeList.filter (passes f)).flatMap fun e => [e.source, e.target])

def reach (g : Graph κ) (f : EdgeFilter κ) (id : NodeId) : Distances :=
  distancesFrom (successors g f) g.hopLimit [id]

/-- Whether there can be a cycle in a component: it has several nodes, or its node leads to
itself. -/
def holdsCycle (g : Graph κ) (f : EdgeFilter κ) (component : List NodeId) : Bool :=
  1 < component.length || component.head?.any fun id => (successors g f id).contains id

/-- The components with cycles in the order of their smallest nodes, each by identity. -/
def components (g : Graph κ) (f : EdgeFilter κ) : List (List NodeId) :=
  let all := (nodes g f).map fun id => (id, reach g f id)
  let componentOf := fun (id : NodeId) (reached : Distances) =>
    (all.filter fun (other, back) => reached.contains other && back.contains id).map (·.1)
  (distinctOn List.head? (all.map fun (id, reached) => componentOf id reached)).filter
    (holdsCycle g f)

/-- The cycles that start with a path, at most `room` of them. The path starts at the smallest node
of the cycle and ends at `last`; `steps` bounds how often it can still be extended. -/
def extend (next : NodeId → List NodeId) (start : NodeId) (maxLength : Nat) :
    Nat → Nat → List NodeId → NodeId → List (List NodeId)
  | 0, _, _, _ => []
  | steps + 1, room, path, last =>
    (next last).foldl
      (fun found id =>
        if room ≤ found.length then found
        else if id = start then found ++ [path]
        else if compare start id == .lt && path.length < maxLength && !path.contains id then
          found ++ extend next start maxLength steps (room - found.length) (path ++ [id]) id
        else found)
      []

def inComponent (g : Graph κ) (f : EdgeFilter κ) (maxLength room : Nat) (component : List NodeId) :
    List (List NodeId) :=
  let next := fun id => (successors g f id).filter component.contains
  component.foldl
    (fun found start =>
      found ++ extend next start maxLength component.length (room - found.length) [start] start)
    []

/-- The cycles of a graph, one more than asked for if there are more. -/
def search (g : Graph κ) (f : EdgeFilter κ) (limits : CycleLimits) : List (List NodeId) :=
  (components g f).foldl
    (fun found component =>
      found ++ inComponent g f limits.maxLength (limits.maxCycles + 1 - found.length) component)
    []

def of (g : Graph κ) (f : EdgeFilter κ) (limits : CycleLimits) : CycleReport :=
  let found := search g f limits
  { cycles := (found.take limits.maxCycles).mergeSort fun a b => (compare a b).isLE
    truncated := limits.maxCycles < found.length }

end CycleReport

end AppAtlas
