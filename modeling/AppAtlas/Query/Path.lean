import AppAtlas.Query.Filter

/-! # Shortest paths

A path of the fewest hops from one node to another. Among several the one of greatest confidence is
taken, and among those of nearly equal confidence the first by its nodes. It is found layer by
layer: for each node at a distance, the best path to it among those that the nodes before it offer.
-/

namespace AppAtlas

structure GraphPath (κ : Type) where
  /-- The nodes, both ends included. -/
  nodes : List NodeId
  edges : List EdgeId
  confidence : κ

namespace GraphPath

variable {κ : Type} [Confidence κ]

def hops (p : GraphPath κ) : Nat := p.edges.length

def stay (id : NodeId) : GraphPath κ := ⟨[id], [], 1.0⟩

def extend (p : GraphPath κ) (e : Edge κ) : GraphPath κ where
  nodes := p.nodes ++ [e.target]
  edges := p.edges ++ [e.id]
  confidence := p.confidence * e.confidence

/-- Confidences that differ by no more count as equal. -/
def tolerance : κ := 1e-12

def betterThan (p held : GraphPath κ) : Bool :=
  let difference := p.confidence - held.confidence
  if tolerance < Confidence.size difference then 0.0 < difference
  else compare p.nodes held.nodes == .lt

def strongerEdge (e held : Edge κ) : Bool :=
  held.confidence < e.confidence
    || (!(e.confidence < held.confidence) && compare e.id held.id == .lt)

/-- The edges along which a node is left: to each successor the strongest, by successor. -/
def strongestEdges (g : Graph κ) (f : EdgeFilter κ) (id : NodeId) : List (Edge κ) :=
  let chosen : Std.ExtTreeMap NodeId (Edge κ) compare :=
    ((g.outgoing id).filter fun e => f.allowsKind e.kind).foldl
      (fun chosen e =>
        chosen.alter e.target fun
          | some held => some (if strongerEdge e held then e else held)
          | none => some e)
      ∅
  chosen.values

/-- The best paths found so far, and the nodes first reached in the present layer. -/
structure Layer (κ : Type) where
  best : Std.ExtTreeMap NodeId (GraphPath κ) compare
  nodes : List NodeId

def Layer.offer (l : Layer κ) (id : NodeId) (p : GraphPath κ) : Layer κ :=
  match l.best.get? id with
  | none => { best := l.best.insert id p, nodes := l.nodes ++ [id] }
  | some held => if p.betterThan held then { l with best := l.best.insert id p } else l

def Layer.next (g : Graph κ) (f : EdgeFilter κ) (distances : Distances) (distance : Nat)
    (l : Layer κ) : Layer κ :=
  l.nodes.foldl
    (fun (new : Layer κ) id =>
      match new.best.get? id with
      | none => new
      | some p =>
        ((strongestEdges g f id).filter fun e => distances.get? e.target == some distance).foldl
          (fun new e => new.offer e.target (p.extend e)) new)
    { l with nodes := [] }

/-- The layer reached after a number of further hops. -/
def Layer.after (g : Graph κ) (f : EdgeFilter κ) (distances : Distances) :
    Nat → Nat → Layer κ → Layer κ
  | 0, _, l => l
  | n + 1, distance, l =>
    Layer.after g f distances n (distance + 1) (Layer.next g f distances (distance + 1) l)

/-- A node one hop away is counted and queued, unless it has a count. -/
def meet (count : Nat) (found : Distances × List NodeId) (id : NodeId) :
    Distances × List NodeId :=
  if found.1.contains id then found else (found.1.insert id count, found.2 ++ [id])

/-- Hop counts found from the nodes of a queue, first in first out. The search does not go on from
the goal or from a node at the bound, and it stops at a node that is as far as the goal. -/
def seek (next : NodeId → List NodeId) (goal : NodeId) (bound : Option Nat) :
    Nat → Distances → List NodeId → Distances
  | 0, counts, _ => counts
  | _ + 1, counts, [] => counts
  | steps + 1, counts, id :: queue =>
    let count := counts.getD id 0
    if id = goal ∨ bound.any (· ≤ count) then seek next goal bound steps counts queue
    else if (counts.get? goal).any (· ≤ count) then counts
    else
      let found := (next id).foldl (meet (count + 1)) (counts, queue)
      seek next goal bound steps found.1 found.2

def onward (g : Graph κ) (f : EdgeFilter κ) (id : NodeId) : List NodeId :=
  ((g.outgoing id).filter fun e => f.allowsKind e.kind).map (·.target)

/-- The hop counts of the nodes no further than a goal. Each node is queued at most once, and it is
the start or the target of an edge. -/
def hopCounts (g : Graph κ) (f : EdgeFilter κ) (start goal : NodeId) : Distances :=
  seek (onward g f) goal f.maxDepth (g.hopLimit + 1)
    (Std.ExtTreeMap.ofList [(start, 0)] compare) [start]

def search? (g : Graph κ) (f : EdgeFilter κ) (start goal : NodeId) : Option (GraphPath κ) := do
  let distances := hopCounts g f start goal
  let far ← distances.get? goal
  let first : Layer κ := ⟨Std.ExtTreeMap.ofList [(start, stay start)] compare, [start]⟩
  let last := Layer.after g f distances far 0 first
  (last.best.get? goal).filter fun p => f.minConfidence ≤ p.confidence

def shortest (g : Graph κ) (f : EdgeFilter κ) (start goal : NodeId) :
    Except QueryError (GraphPath κ) :=
  if !g.hasNode start then .error (.nodeNotFound start)
  else if !g.hasNode goal then .error (.nodeNotFound goal)
  else if start = goal then .ok (stay start)
  else
    match search? g f start goal with
    | some p => .ok p
    | none => .error (.noPath start goal)

end GraphPath

end AppAtlas
