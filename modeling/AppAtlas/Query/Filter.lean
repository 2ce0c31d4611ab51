import AppAtlas.Graph.Basic

/-! # Asking the graph

What the questions about a graph have in common: the direction in which edges are followed, the
edges that may be followed, the nodes one hop away, and the nodes within a number of hops.
-/

namespace AppAtlas

inductive QueryError where
  | nodeNotFound (id : NodeId)
  | noPath (start goal : NodeId)
  | unknownKind (text : String)
deriving DecidableEq

def QueryError.message : QueryError → String
  | nodeNotFound id => "Node not found: " ++ id.text
  | noPath start goal => "No path from " ++ start.text ++ " to " ++ goal.text
  | unknownKind text => "Unknown kind: " ++ text

inductive Direction where
  | forward
  /-- To dependencies, from the source of an edge to its target. -/
  | backward
  | both
deriving DecidableEq, Repr

namespace Direction

def name : Direction → String
  | forward => "forward"
  | backward => "backward"
  | both => "both"

def ofName? (s : String) : Option Direction := [forward, backward, both].find? (·.name == s)

def toDependents (d : Direction) : Bool := d != backward

def toDependencies (d : Direction) : Bool := d != forward

end Direction

structure EdgeFilter (κ : Type) where
  kinds : Option (List EdgeKind)
  /-- The greatest number of hops; any when there is none. -/
  maxDepth : Option Nat
  minConfidence : κ
deriving DecidableEq

def EdgeFilter.all {κ : Type} [Confidence κ] : EdgeFilter κ := ⟨none, none, 0.0⟩

namespace EdgeFilter

variable {κ : Type} [Confidence κ]

def allowsKind (f : EdgeFilter κ) (kind : EdgeKind) : Bool :=
  f.kinds.all (·.contains kind)

def admits (f : EdgeFilter κ) (e : Edge κ) : Bool :=
  f.allowsKind e.kind && f.minConfidence ≤ e.confidence

end EdgeFilter

namespace Graph

variable {κ : Type} [Confidence κ]

/-- The nodes one hop away, each with the edge followed. -/
def neighbours (g : Graph κ) (direction : Direction) (f : EdgeFilter κ) (id : NodeId) :
    List (NodeId × Edge κ) :=
  let dependents :=
    if direction.toDependents then (g.incoming id).map fun e => (e.source, e) else []
  let dependencies :=
    if direction.toDependencies then (g.outgoing id).map fun e => (e.target, e) else []
  (dependents ++ dependencies).filter fun (_, e) => f.admits e

/-- A number of hops after which nothing new is reached: a walk that never returns uses each edge at
most once. -/
def hopLimit (g : Graph κ) : Nat := g.edges.size

def hops (g : Graph κ) (bound : Option Nat) : Nat := bound.elim g.hopLimit (min g.hopLimit)

end Graph

/-! ### Hop counts -/

abbrev Distances := Std.ExtTreeMap NodeId Nat compare

/-- The nodes that `next` leads to from `frontier` and that have no distance yet, each once. -/
def newNodes (next : NodeId → List NodeId) (seen : Distances) (frontier : List NodeId) : List NodeId :=
  sortedSet ((frontier.flatMap next).filter fun id => !seen.contains id)

/-- Distances extended by a number of rounds, each of which goes one hop further from the nodes
reached last. -/
def spread (next : NodeId → List NodeId) : Nat → Nat → Distances → List NodeId → Distances
  | 0, _, seen, _ => seen
  | rounds + 1, distance, seen, frontier =>
    let new := newNodes next seen frontier
    if new.isEmpty then seen
    else
      spread next rounds (distance + 1) (seen.insertMany (new.map fun id => (id, distance + 1))) new

/-- The distances of all nodes within a number of hops of some nodes. -/
def distancesFrom (next : NodeId → List NodeId) (rounds : Nat) (starts : List NodeId) : Distances :=
  spread next rounds 0 (Std.ExtTreeMap.ofList (starts.map fun id => (id, 0)) compare) starts

end AppAtlas
