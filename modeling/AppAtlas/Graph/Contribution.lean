import AppAtlas.Graph.Edge
import AppAtlas.Graph.LookupKey

/-! # Contributions

What one version of a file adds to the graph: the nodes it defines, the edges it speaks for, a
placeholder for each target it does not define, and the keys that were looked up while its
references were resolved.

A contribution is sound when its identities are right, its confidences are confidences and it
carries both ends of every edge; `fault?` gives the first fault of one that is not.
-/

namespace AppAtlas

structure Contribution (κ : Type) where
  key : FileKey
  path : String
  nodes : List Node := []
  edges : List (Edge κ) := []
  placeholders : List Node := []
  lookups : LookupKeys := ∅
deriving DecidableEq

namespace Contribution

variable {κ : Type}

def definitionsOnly (c : Contribution κ) : Contribution κ :=
  { key := c.key, path := c.path, nodes := c.nodes }

def isEmpty (c : Contribution κ) : Bool :=
  c.nodes.isEmpty && c.edges.isEmpty && c.placeholders.isEmpty

def node? (c : Contribution κ) (id : NodeId) : Option Node := c.nodes.find? (·.id == id)

def placeholder? (c : Contribution κ) (id : NodeId) : Option Node :=
  c.placeholders.find? (·.id == id)

def edge? (c : Contribution κ) (id : EdgeId) : Option (Edge κ) := c.edges.find? (·.id == id)

def carries (c : Contribution κ) (id : NodeId) : Bool :=
  (c.node? id).isSome || (c.placeholder? id).isSome

def nodeIds (c : Contribution κ) : List NodeId :=
  c.nodes.map (·.id) ++ c.placeholders.map (·.id)

def edgeIds (c : Contribution κ) : List EdgeId := c.edges.map (·.id)

end Contribution

/-! ### Soundness -/

inductive Fault (κ : Type) where
  | emptyPath
  | nodeIdentity (id : NodeId) (signature : String)
  | placeholderConcrete (id : NodeId)
  | placeholderIdentity (id : NodeId) (signature : String)
  | edgeIdentity (id : EdgeId)
  | edgeConfidence (id : EdgeId) (confidence : κ)
  | edgeDangling (id : EdgeId) (missing : NodeId)
deriving DecidableEq

def Fault.message {κ : Type} [Confidence κ] : Fault κ → String
  | emptyPath => "empty path"
  | nodeIdentity id signature =>
    "node " ++ id.text ++ " does not match signature " ++ Text.quoted signature
  | placeholderConcrete id => "placeholder " ++ id.text ++ " is not a stub"
  | placeholderIdentity id signature =>
    "placeholder " ++ id.text ++ " does not match signature " ++ Text.quoted signature
  | edgeIdentity id => "edge " ++ id.text ++ " does not match its endpoints"
  | edgeConfidence id confidence =>
    "edge " ++ id.text ++ " has confidence " ++ Confidence.text confidence ++ " outside (0, 1]"
  | edgeDangling id missing => "edge " ++ id.text ++ " dangles at " ++ missing.text

namespace Contribution

variable {κ : Type} [Confidence κ]

def nodeFault? (n : Node) : Option (Fault κ) :=
  if n.id = n.expectedId then none else some (.nodeIdentity n.id n.signature)

def placeholderFault? (n : Node) : Option (Fault κ) :=
  if !n.isStub then some (.placeholderConcrete n.id)
  else if n.id = n.expectedId then none
  else some (.placeholderIdentity n.id n.signature)

def edgeFault? (c : Contribution κ) (e : Edge κ) : Option (Fault κ) :=
  if e.id ≠ EdgeId.of e.source e.target e.kind then some (.edgeIdentity e.id)
  else if !Confidence.isUnit e.confidence then some (.edgeConfidence e.id e.confidence)
  else if !c.carries e.source then some (.edgeDangling e.id e.source)
  else if !c.carries e.target then some (.edgeDangling e.id e.target)
  else none

def fault? (c : Contribution κ) : Option (Fault κ) :=
  if c.path.isEmpty then some .emptyPath
  else
    c.nodes.findSome? nodeFault?
      <|> c.placeholders.findSome? placeholderFault?
      <|> c.edges.findSome? c.edgeFault?

def IsSound (c : Contribution κ) : Prop := c.fault? = none

instance (c : Contribution κ) : Decidable c.IsSound := inferInstanceAs (Decidable (_ = none))

end Contribution

end AppAtlas
