import AppAtlas.Graph.Contribution
import AppAtlas.Graph.Index

/-! # The graph

One version of the graph: its nodes and edges, and for each file what it contributed. Which edges
leave or enter a node and which nodes stand under a lookup key is kept in indices. A graph carries
the proof that its indices are right.
-/

namespace AppAtlas

/-- What a version of a file contributed to a graph, by identity. -/
structure Provenance where
  path : String
  nodeIds : List NodeId
  edgeIds : List EdgeId
  placeholderIds : List NodeId
  lookups : LookupKeys
deriving DecidableEq

def Contribution.provenance {κ : Type} (c : Contribution κ) : Provenance where
  path := c.path
  nodeIds := sortedSet (c.nodes.map (·.id))
  edgeIds := sortedSet (c.edges.map (·.id))
  placeholderIds := sortedSet (c.placeholders.map (·.id))
  lookups := c.lookups

structure Graph (κ : Type) where
  version : Nat := 0
  nodes : Std.ExtTreeMap NodeId Node compare := ∅
  edges : Std.ExtTreeMap EdgeId (Edge κ) compare := ∅
  forward : Adjacency := {}
  reverse : Adjacency := {}
  symbols : Symbols := ∅
  definers : Std.ExtTreeMap NodeId (Std.ExtTreeSet String compare) compare := ∅
  /-- The version since which a node has been concrete. -/
  introduced : Std.ExtTreeMap NodeId Nat compare := ∅
  provenance : Std.ExtTreeMap FileKey Provenance compare := ∅
  /-- The version of each file the graph was made from. -/
  files : Std.ExtTreeMap String FileKey compare := ∅
  forward_lists : forward.Lists edges (·.source) := by exact Adjacency.lists_empty
  reverse_lists : reverse.Lists edges (·.target) := by exact Adjacency.lists_empty
  symbols_lists : symbols.Lists nodes := by exact Symbols.lists_empty

namespace Graph

variable {κ : Type}

def empty (version : Nat := 0) : Graph κ := { version := version }

/-! ### Looking up -/

def node? (g : Graph κ) (id : NodeId) : Option Node := g.nodes.get? id

def edge? (g : Graph κ) (id : EdgeId) : Option (Edge κ) := g.edges.get? id

def hasNode (g : Graph κ) (id : NodeId) : Bool := g.nodes.contains id

def nodeList (g : Graph κ) : List Node := g.nodes.values

def edgeList (g : Graph κ) : List (Edge κ) := g.edges.values

/-- The edges at a node, kind by kind and by identity. -/
def adjacent (g : Graph κ) (a : Adjacency) (id : NodeId) : List (Edge κ) :=
  EdgeKind.all.flatMap fun kind => (a.edges kind id).toList.filterMap g.edge?

def outgoing (g : Graph κ) (id : NodeId) : List (Edge κ) := g.adjacent g.forward id

def incoming (g : Graph κ) (id : NodeId) : List (Edge κ) := g.adjacent g.reverse id

def lookup (g : Graph κ) (key : LookupKey) : List Node :=
  (g.symbols.entries key).toList.filterMap g.node?

def definersOf (g : Graph κ) (id : NodeId) : List String :=
  ((g.definers.get? id).map (·.toList)).getD []

/-- The version since which a node has been concrete. -/
def introduced? (g : Graph κ) (id : NodeId) : Option Nat := g.introduced.get? id

def fileKey? (g : Graph κ) (path : String) : Option FileKey := g.files.get? path

def provenanceAt? (g : Graph κ) (path : String) : Option Provenance :=
  (g.fileKey? path).bind g.provenance.get?

/-- The provenance of the files that looked up one of some keys, by file key. -/
def dependentsOf (g : Graph κ) (keys : LookupKeys) : List Provenance :=
  g.provenance.values.filter fun p => p.lookups.toList.any fun k => keys.contains k

def sameContent [DecidableEq κ] (g h : Graph κ) : Bool :=
  g.nodes = h.nodes ∧ g.edges = h.edges ∧ g.provenance = h.provenance

/-! ### Changing -/

/-- The graph with a node set. A node that becomes concrete is introduced by the graph's version;
a stub has no such version. -/
def putNode (g : Graph κ) (n : Node) (definers : Std.ExtTreeSet String compare) : Graph κ :=
  let wasConcrete := (g.node? n.id).any (·.isConcrete)
  { g with
    nodes := g.nodes.insert n.id n
    symbols := (g.symbols.without n.id (g.node? n.id)).insert n
    symbols_lists := (g.symbols_lists.without n.id).insert
    introduced :=
      if n.isConcrete then
        if wasConcrete then g.introduced else g.introduced.insert n.id g.version
      else g.introduced.erase n.id
    definers :=
      if definers.isEmpty then g.definers.erase n.id else g.definers.insert n.id definers }

def dropNode (g : Graph κ) (id : NodeId) : Graph κ :=
  { g with
    nodes := g.nodes.erase id
    symbols := g.symbols.without id (g.node? id)
    symbols_lists := g.symbols_lists.without id
    introduced := g.introduced.erase id
    definers := g.definers.erase id }

def dropEdge (g : Graph κ) (id : EdgeId) : Graph κ :=
  { g with
    edges := g.edges.erase id
    forward := g.forward.without (·.source) id (g.edge? id)
    forward_lists := g.forward_lists.without id
    reverse := g.reverse.without (·.target) id (g.edge? id)
    reverse_lists := g.reverse_lists.without id }

/-- The graph with an edge set. An edge of the same identity goes first, with its ends and kind. -/
def putEdge (g : Graph κ) (e : Edge κ) : Graph κ :=
  let rest := g.dropEdge e.id
  { rest with
    edges := g.edges.insert e.id e
    forward := rest.forward.insert e.kind e.source e.id
    forward_lists := rest.forward_lists.insert
    reverse := rest.reverse.insert e.kind e.target e.id
    reverse_lists := rest.reverse_lists.insert }

def dropProvenance (g : Graph κ) (key : FileKey) : Graph κ :=
  match g.provenance.get? key with
  | some p =>
    { g with
      provenance := g.provenance.erase key
      files := if g.fileKey? p.path = some key then g.files.erase p.path else g.files }
  | none => g

def putProvenance (g : Graph κ) (key : FileKey) (c : Contribution κ) : Graph κ :=
  { g with
    provenance := g.provenance.insert key c.provenance
    files := g.files.insert c.path key }

/-- The graph in which nodes that were concrete in an older one keep the version that introduced
them. -/
def inheritIntroduced (g old : Graph κ) : Graph κ :=
  { g with introduced := g.introduced.map fun id v => (old.introduced? id).getD v }

end Graph

end AppAtlas
