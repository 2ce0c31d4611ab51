import AppAtlas.Query.Filter

/-! # Neighbourhoods

The part of a graph around some nodes: the nodes within a number of hops that are of the wanted
kinds, and all admitted edges between them. Hops lead through nodes of any kind.
-/

namespace AppAtlas

structure SubgraphOptions (κ : Type) where
  /-- The kinds of nodes; all when there is no list. -/
  kinds : Option (List NodeKind)
  edges : EdgeFilter κ
  depth : Nat
  direction : Direction

structure Subgraph (κ : Type) where
  nodes : List Node
  edges : List (Edge κ)

namespace Subgraph

variable {κ : Type} [Confidence κ]

def hasNode (s : Subgraph κ) (id : NodeId) : Bool := s.nodes.any (·.id == id)

def around (g : Graph κ) (seeds : List NodeId) (o : SubgraphOptions κ) :
    Except QueryError (Subgraph κ) :=
  match seeds.find? fun id => !g.hasNode id with
  | some id => .error (.nodeNotFound id)
  | none =>
    let next := fun id => (g.neighbours o.direction o.edges id).map (·.1)
    let distances := distancesFrom next (g.hops (some o.depth)) seeds
    let nodes := g.nodeList.filter fun n =>
      distances.contains n.id && o.kinds.all (·.contains n.kind)
    let kept := fun (id : NodeId) => nodes.any (·.id == id)
    let edges := (nodes.flatMap fun n => g.outgoing n.id).filter fun e =>
      o.edges.admits e && kept e.target
    .ok { nodes := nodes, edges := edges.mergeSort fun a b => (compare a.id b.id).isLE }

end Subgraph

end AppAtlas
