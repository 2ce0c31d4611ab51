import AppAtlas.Query.Filter
import AppAtlas.Text.LowerCase

/-! # Finding and counting nodes -/

namespace AppAtlas

/-- What nodes are wanted. A criterion that is not given holds of every node. -/
structure NodeQuery where
  kind : Option NodeKind := none
  signature : Option String := none
  /-- A part of the signature or the name, in letters of either case. -/
  text : Option String := none
  file : Option String := none
deriving DecidableEq, Repr

namespace NodeQuery

def mentions (text : String) (part : String) : Bool :=
  Text.holds (Text.lowerCase part.toList) (Text.lowerCase text.toList)

def isMetBy (q : NodeQuery) (n : Node) : Bool :=
  q.kind.all (· == n.kind) && q.signature.all (· == n.signature)
    && q.file.all (some · == n.file)
    && q.text.all fun t => mentions n.signature t || mentions n.name t

end NodeQuery

def Graph.find {κ : Type} (g : Graph κ) (q : NodeQuery) : List Node := g.nodeList.filter q.isMetBy

structure GraphStats (κ : Type) where
  version : Nat
  nodes : Nat
  edges : Nat
  files : Nat
  stubs : Nat
  markers : Nat
  nodesByKind : List (NodeKind × Nat)
  edgesByKind : List (EdgeKind × Nat)
  /-- The mean confidence of the edges, zero when there are none. -/
  meanConfidence : κ

def countKinds {α β : Type} [BEq β] (kinds : List β) (kind : α → β) (items : List α) :
    List (β × Nat) :=
  (kinds.map fun k => (k, (items.filter fun a => kind a == k).length)).filter (·.2 != 0)

def Graph.stats {κ : Type} [Confidence κ] (g : Graph κ) : GraphStats κ where
  version := g.version
  nodes := g.nodes.size
  edges := g.edges.size
  files := g.files.size
  stubs := (g.nodeList.filter fun n => n.isStub && !n.isMarker).length
  markers := (g.nodeList.filter (·.isMarker)).length
  nodesByKind := countKinds NodeKind.all (·.kind) g.nodeList
  edgesByKind := countKinds EdgeKind.all (·.kind) g.edgeList
  meanConfidence :=
    if g.edges.isEmpty then 0.0
    else (g.edgeList.map (·.confidence)).foldl (· + ·) 0.0 / Confidence.ofNat g.edges.size

end AppAtlas
