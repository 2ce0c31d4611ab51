import AppAtlas.Analysis.Progress
import AppAtlas.Document.Basic
import AppAtlas.Store.Ledger

/-! # The store

The store holds the current version of the graph and the ledger it was made from. A batch of changes
makes at most one new version, and a batch that is refused or cancelled changes nothing.

A call works on the store in place. What it has changed when it fails stays changed, and nothing is
put back: that a call that fails has changed nothing is due to the order of its steps.
-/

namespace AppAtlas

/-- The current graph and the contributions it was made from. -/
structure Store (κ : Type) where
  graph : Graph κ := .empty
  ledger : Ledger κ := .empty

/-- Why a batch was not entered. -/
inductive StoreError (κ : Type) where
  | unsound (path : String) (fault : Fault κ)
  | cancelled
deriving DecidableEq

def StoreError.message {κ : Type} [Confidence κ] : StoreError κ → String
  | unsound path fault => "Invalid diff for " ++ path ++ ": " ++ fault.message
  | cancelled => "Batch cancelled before commit"

namespace Document

variable {κ : Type} [Confidence κ]

/-- The store that the contributions of a document make. -/
def store (d : Document κ) : Store κ :=
  let made := (Ledger.empty : Ledger κ).commit .empty d.contributions []
  let graph := made.2.getD .empty
  { graph :=
      { graph with
        version := d.version
        introduced := graph.introduced.map fun _ _ => d.version }
    ledger := { made.1 with version := d.version } }

/-- Why a document is not restored: it is at fault, or its contributions make other nodes or edges
than it holds. -/
def refusal? (d : Document κ) : Option (SaveError κ) :=
  d.fault?.or
    (if d.store.graph.nodes ≠ Std.ExtTreeMap.ofList (d.nodes.map fun n => (n.id, n)) compare then
      some (.corrupt .nodesDiffer)
    else if d.store.graph.edges ≠
        Std.ExtTreeMap.ofList (d.edges.map fun e => (e.id, e)) compare then
      some (.corrupt .edgesDiffer)
    else none)

end Document

namespace Store

def empty {κ : Type} : Store κ := {}

/-- A store at work, and the run that it works for. -/
structure Session (κ : Type) where
  store : Store κ
  run : Run := {}

/-- A step of a call: it gives a value or an error, and either way the session it leaves. -/
abbrev Action (κ : Type) := EStateM (StoreError κ) (Session κ)

namespace Action

variable {κ : Type} [Confidence κ]

def validate : List (Contribution κ) → Action κ Unit
  | [] => pure ()
  | c :: changed =>
    match c.fault? with
    | some fault => throw (.unsound c.path fault)
    | none => validate changed

/-- The token is asked whether to stop. -/
def poll (token : CancelToken) : Action κ Unit := fun s =>
  let (stop, run) := s.run.ask token
  if stop then .error .cancelled { s with run := run } else .ok () { s with run := run }

/-- What comes before any change. The ledger is locked between the two polls, which may take its
time. -/
def vet (changed : List (Contribution κ)) (token : CancelToken) : Action κ Unit := do
  validate changed
  poll token
  poll token

def writeLedger (ledger : Ledger κ) : Action κ Unit :=
  modify fun s => { s with store := { s.store with ledger := ledger } }

def publish (graph : Graph κ) : Action κ (Graph κ) := do
  modify fun s => { s with store := { s.store with graph := graph } }
  return graph

/-- Contributions take the place of those of their paths and those of the removed paths go, as one
version. A batch that changes nothing makes none. -/
def applyChanges (changed : List (Contribution κ)) (removed : List String) (token : CancelToken) :
    Action κ (Graph κ) := do
  vet changed token
  let s := (← get).store
  let made := s.ledger.commit s.graph changed removed
  writeLedger made.1
  made.2.elim (return s.graph) publish

/-- All contributions go and some take their place, as a new version. Nodes that were concrete
before keep the version that introduced them. -/
def rebuild (changed : List (Contribution κ)) (token : CancelToken) : Action κ (Graph κ) := do
  vet changed token
  let old := (← get).store.graph
  let start : Ledger κ := .empty old.version
  let made := start.commit .empty changed []
  let next := made.2.getD (.empty (old.version + 1))
  writeLedger (made.2.elim { made.1 with version := old.version + 1 } fun _ => made.1)
  publish (next.inheritIntroduced old)

/-- What a call gives to one who looks at the store only if the call succeeds. -/
def result {α : Type} (act : Action κ α) (s : Store κ) : Except (StoreError κ) (Store κ) :=
  match act { store := s } with
  | .ok _ after => .ok after.store
  | .error e _ => .error e

/-- The store that a call leaves, whether it succeeds or fails. -/
def leaves {α : Type} (act : Action κ α) (s : Store κ) : Store κ :=
  match act { store := s } with
  | .ok _ after => after.store
  | .error _ after => after.store

end Action

variable {κ : Type} [Confidence κ]

def applyChanges (s : Store κ) (changed : List (Contribution κ)) (removed : List String)
    (cancelled : Bool := false) : Except (StoreError κ) (Store κ) :=
  (Action.applyChanges changed removed (.fixed cancelled)).result s

def apply (s : Store κ) (c : Contribution κ) : Except (StoreError κ) (Store κ) :=
  s.applyChanges [c] []

def remove (s : Store κ) (path : String) : Except (StoreError κ) (Store κ) :=
  s.applyChanges [] [path]

def rebuild (s : Store κ) (changed : List (Contribution κ)) (cancelled : Bool := false) :
    Except (StoreError κ) (Store κ) :=
  (Action.rebuild changed (.fixed cancelled)).result s

/-- The graph as it would be with some definitions entered and some paths removed, for resolving
references against. -/
def stage (s : Store κ) (definitions : List (Contribution κ)) (removed : List String) : Graph κ :=
  (s.ledger.commit s.graph (definitions.map (·.definitionsOnly)) removed).2.getD s.graph

def stageAlone (s : Store κ) (definitions : List (Contribution κ)) : Graph κ :=
  let start : Ledger κ := .empty s.graph.version
  let staged := (start.commit .empty (definitions.map (·.definitionsOnly)) []).2.getD .empty
  staged.inheritIntroduced s.graph

/-! ### Saving and loading -/

def document (s : Store κ) : Document κ where
  format := Document.currentFormat
  version := s.graph.version
  nodes := s.graph.nodeList
  edges := s.graph.edgeList
  provenance :=
    (s.ledger.contributions.values.map (·.entry)).mergeSort fun a b => (compare a.path b.path).isLE

/-- The document takes the place of all that the store holds. Its contributions have to make exactly
its nodes and edges. -/
def Action.restore (d : Document κ) : EStateM (SaveError κ) (Store κ) (Graph κ) :=
  match d.refusal? with
  | some e => throw e
  | none => do
    modify fun s => { s with ledger := d.store.ledger }
    modify fun s => { s with graph := d.store.graph }
    return d.store.graph

/-- The store that a document was saved from. -/
def restore (d : Document κ) : Except (SaveError κ) (Store κ) :=
  match Action.restore d .empty with
  | .ok _ s => .ok s
  | .error e _ => .error e

end Store

end AppAtlas
