import AppAtlas.Graph.Basic

/-! # The ledger of contributions

The ledger knows which version of which file contributed which node, placeholder and edge. A batch
of changes is entered into the ledger first; then every node and edge that the batch touched is
computed anew from the contributions that are left, and everything else of the graph stays as it is.

A node is taken from the first path, in the order of paths, among those that define it; if none
does, from the first that carries a placeholder for it. An edge joins what all paths say about it.
-/

namespace AppAtlas

/-- For each identity the paths that contribute to it, each with the version of its file. -/
abbrev Owners (α : Type) [Ord α] :=
  Std.ExtTreeMap α (Std.ExtTreeMap String FileKey compare) compare

namespace Owners

variable {α : Type} [Ord α] [Std.TransOrd α]

def own (o : Owners α) (path : String) (key : FileKey) (id : α) : Owners α :=
  o.alter id fun held => some ((held.getD ∅).insert path key)

def disown (o : Owners α) (path : String) (id : α) : Owners α :=
  o.alter id fun held =>
    held.bind fun paths =>
      let rest := paths.erase path
      if rest.isEmpty then none else some rest

/-- The versions of files that contribute to an identity, in the order of their paths. -/
def keysOf (o : Owners α) (id : α) : List FileKey :=
  ((o.get? id).map (·.values)).getD []

def pathsOf (o : Owners α) (id : α) : Std.ExtTreeSet String compare :=
  Std.ExtTreeSet.ofList (((o.get? id).map (·.keys)).getD []) compare

end Owners

structure Ledger (κ : Type) where
  contributions : Std.ExtTreeMap FileKey (Contribution κ) compare := ∅
  paths : Std.ExtTreeMap String FileKey compare := ∅
  nodeOwners : Owners NodeId := ∅
  placeholderOwners : Owners NodeId := ∅
  edgeOwners : Owners EdgeId := ∅
  /-- The version of the last batch entered. -/
  version : Nat := 0

namespace Ledger

variable {κ : Type}

def empty (version : Nat := 0) : Ledger κ := { version := version }

def contributionFor? (l : Ledger κ) (path : String) : Option (Contribution κ) :=
  (l.paths.get? path).bind l.contributions.get?

/-! ### Entering contributions -/

def attach (l : Ledger κ) (c : Contribution κ) : Ledger κ :=
  { l with
    nodeOwners := (c.nodes.map (·.id)).foldl (·.own c.path c.key) l.nodeOwners
    placeholderOwners := (c.placeholders.map (·.id)).foldl (·.own c.path c.key) l.placeholderOwners
    edgeOwners := (c.edges.map (·.id)).foldl (·.own c.path c.key) l.edgeOwners
    paths := l.paths.insert c.path c.key
    contributions := l.contributions.insert c.key c }

def detach (l : Ledger κ) (path : String) : Ledger κ × Option (Contribution κ) :=
  match l.paths.get? path with
  | none => (l, none)
  | some key =>
    let rest := { l with paths := l.paths.erase path }
    match l.contributions.get? key with
    | none => (rest, none)
    | some c =>
      ({ rest with
          contributions := l.contributions.erase key
          nodeOwners := (c.nodes.map (·.id)).foldl (·.disown path) l.nodeOwners
          placeholderOwners := (c.placeholders.map (·.id)).foldl (·.disown path) l.placeholderOwners
          edgeOwners := (c.edges.map (·.id)).foldl (·.disown path) l.edgeOwners },
        some c)

/-! ### What the contributions make -/

def node? (l : Ledger κ) (id : NodeId) : Option Node :=
  (l.nodeOwners.keysOf id).findSome? (fun key => (l.contributions.get? key).bind (·.node? id))
    <|> (l.placeholderOwners.keysOf id).findSome? fun key =>
      (l.contributions.get? key).bind (·.placeholder? id)

/-- What each file says about an edge, in the order of paths. -/
def edgeParts (l : Ledger κ) (id : EdgeId) : List (Edge κ) :=
  (l.edgeOwners.keysOf id).filterMap fun key => (l.contributions.get? key).bind (·.edge? id)

def edge? [Confidence κ] (l : Ledger κ) (id : EdgeId) : Option (Edge κ) :=
  match l.edgeParts id with
  | [] => none
  | first :: others => some (others.foldl Edge.merge first).settle

def refreshNode (l : Ledger κ) (g : Graph κ) (id : NodeId) : Graph κ :=
  match l.node? id with
  | some n => g.putNode n (l.nodeOwners.pathsOf id)
  | none => g.dropNode id

def refreshEdge [Confidence κ] (l : Ledger κ) (g : Graph κ) (id : EdgeId) : Graph κ :=
  match l.edge? id with
  | some e => g.putEdge e
  | none => g.dropEdge id

/-- A graph with the provenance of a version of a file brought up to date. -/
def refreshProvenance (l : Ledger κ) (g : Graph κ) (key : FileKey) : Graph κ :=
  match l.contributions.get? key with
  | some c => g.putProvenance key c
  | none => g

end Ledger

/-! ### Batches -/

/-- A batch while it is entered: the ledger so far and what the batch touched. -/
structure Batch (κ : Type) where
  ledger : Ledger κ
  nodes : Std.ExtTreeSet NodeId compare := ∅
  edges : Std.ExtTreeSet EdgeId compare := ∅
  dropped : List FileKey := []
  added : List FileKey := []

namespace Batch

variable {κ : Type} [Confidence κ]

def touch (b : Batch κ) (c : Contribution κ) : Batch κ :=
  { b with nodes := b.nodes.insertMany c.nodeIds, edges := b.edges.insertMany c.edgeIds }

def remove (b : Batch κ) (path : String) : Batch κ :=
  let (ledger, old) := b.ledger.detach path
  let rest := { b with ledger := ledger }
  match old with
  | some c => { rest.touch c with dropped := b.dropped ++ [c.key] }
  | none => rest

/-- The batch with a contribution in the place of the one held for its path. A contribution that is
already held changes nothing. -/
def replace (b : Batch κ) (c : Contribution κ) : Batch κ :=
  if b.ledger.contributionFor? c.path = some c then b
  else
    let rest := (b.remove c.path).touch c
    { rest with ledger := rest.ledger.attach c, added := rest.added ++ [c.key] }

/-- The batch of some removals and then some contributions. -/
def of (l : Ledger κ) (changed : List (Contribution κ)) (removed : List String) : Batch κ :=
  changed.foldl replace (removed.foldl remove { ledger := l })

def isIdle (b : Batch κ) : Bool := b.dropped.isEmpty && b.added.isEmpty

/-- The next version of the graph, with everything the batch touched brought up to date. -/
def graph (b : Batch κ) (base : Graph κ) : Graph κ :=
  let start := { base with version := b.ledger.version }
  let withNodes := b.nodes.toList.foldl b.ledger.refreshNode start
  let withEdges := b.edges.toList.foldl b.ledger.refreshEdge withNodes
  b.added.foldl b.ledger.refreshProvenance (b.dropped.foldl Graph.dropProvenance withEdges)

end Batch

/-- The ledger after a batch, and the graph it makes of the one before; none if nothing changed. -/
def Ledger.commit {κ : Type} [Confidence κ] (l : Ledger κ) (base : Graph κ)
    (changed : List (Contribution κ)) (removed : List String) : Ledger κ × Option (Graph κ) :=
  let batch := Batch.of l changed removed
  if batch.isIdle then (batch.ledger, none)
  else
    let next := { batch with ledger := { batch.ledger with version := batch.ledger.version + 1 } }
    (next.ledger, some (next.graph base))

end AppAtlas
