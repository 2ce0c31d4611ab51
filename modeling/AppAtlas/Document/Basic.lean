import AppAtlas.Distinct
import AppAtlas.Document.Timestamp
import AppAtlas.Graph.Basic

/-! # Documents

A document is the saved form of a graph: its nodes and edges in full, and for each file what it
contributed, so that work can go on after loading. A document that was edited or damaged is found
out by `fault?`: identities have to be right and not repeated, edges and provenance may speak only
of what is there, and everything there has to come from some file.
-/

namespace AppAtlas

structure Entry where
  key : FileKey
  path : String
  nodeIds : List NodeId
  edgeIds : List EdgeId
  /-- The stubs a file carries for what it does not define. -/
  placeholders : List Node
  lookups : LookupKeys
deriving DecidableEq

/-- The entry of a contribution: identities in order and each once, of several placeholders for one
identity the first. -/
def Contribution.entry {κ : Type} (c : Contribution κ) : Entry where
  key := c.key
  path := c.path
  nodeIds := sortedSet (c.nodes.map (·.id))
  edgeIds := sortedSet (c.edges.map (·.id))
  placeholders := Node.sorted (distinctOn (·.id) c.placeholders)
  lookups := c.lookups

structure Document (κ : Type) where
  format : Nat
  version : Nat
  savedAt : Option Timestamp := none
  nodes : List Node
  edges : List (Edge κ)
  provenance : List Entry
deriving DecidableEq

/-! ### Faults -/

/-- What can be wrong with a saved graph. -/
inductive Corruption (κ : Type) where
  | nodeIdentity (id : NodeId) (signature : String)
  | nodeRepeated (id : NodeId)
  | edgeIdentity (id : EdgeId)
  | edgeRepeated (id : EdgeId)
  | edgeConfidence (id : EdgeId) (confidence : κ)
  | edgeDangling (id : EdgeId) (missing : NodeId)
  | provenanceRepeated (path : String)
  | nodeMissing (path : String) (id : NodeId)
  | edgeMissing (path : String) (id : EdgeId)
  | placeholderInvalid (path : String) (id : NodeId)
  | placeholderAstray (path : String) (id : NodeId)
  | nodeUnclaimed (id : NodeId)
  | edgeUnclaimed (id : EdgeId)
  | nodesDiffer
  /-- The contributions make other edges than the saved ones. -/
  | edgesDiffer
  | fieldMissing (name : String)
  | badId (text : String)
  | badNodeKind (text : String)
  | badEdgeKind (text : String)
  | badRole (text : String)
  /-- The text is not of the right form. -/
  | unreadable
deriving DecidableEq

/-- The description of what is wrong, if it is more than a text of the wrong form. -/
def Corruption.message? {κ : Type} [Confidence κ] : Corruption κ → Option String
  | nodeIdentity id signature =>
    some ("node " ++ id.text ++ " does not match its signature " ++ Text.quoted signature)
  | nodeRepeated id => some ("duplicate node " ++ id.text)
  | edgeIdentity id => some ("edge " ++ id.text ++ " does not match its endpoints")
  | edgeRepeated id => some ("duplicate edge " ++ id.text)
  | edgeConfidence id confidence =>
    some ("edge " ++ id.text ++ " has confidence " ++ Confidence.text confidence ++ " outside (0, 1]")
  | edgeDangling id missing => some ("edge " ++ id.text ++ " dangles at " ++ missing.text)
  | provenanceRepeated path => some ("duplicate provenance for " ++ path)
  | nodeMissing path id => some (path ++ " claims missing node " ++ id.text)
  | edgeMissing path id => some (path ++ " claims missing edge " ++ id.text)
  | placeholderInvalid path id => some (path ++ " carries an invalid placeholder " ++ id.text)
  | placeholderAstray path id => some (path ++ " carries placeholder " ++ id.text ++ " for no node")
  | nodeUnclaimed id => some ("node " ++ id.text ++ " has no provenance")
  | edgeUnclaimed id => some ("edge " ++ id.text ++ " has no provenance")
  | nodesDiffer => some "provenance does not reproduce the stored nodes"
  | edgesDiffer => some "provenance does not reproduce the stored edges"
  | fieldMissing name => some ("missing " ++ name)
  | badId text => some ("bad id " ++ Text.quoted text)
  | badNodeKind text => some ("node kind " ++ Text.quoted text)
  | badEdgeKind text => some ("edge kind " ++ Text.quoted text)
  | badRole text => some ("provenance role " ++ Text.quoted text)
  | unreadable => none

/-- Why a graph could not be saved or loaded. -/
inductive SaveError (κ : Type) where
  | corrupt (cause : Corruption κ)
  /-- The layout is of another version. -/
  | unsupported (format : Nat)
  | database
  | noFile
deriving DecidableEq

/-- The first answer of `f` along a list, where `f` also sees the entries before. -/
def findSomeAfter? {α β : Type} (f : List α → α → Option β) (before : List α) : List α → Option β
  | [] => none
  | a :: as => f before a <|> findSomeAfter? f (before ++ [a]) as

namespace Document

variable {κ : Type} [Confidence κ]

def currentFormat : Nat := 1

def hasNode (d : Document κ) (id : NodeId) : Bool := d.nodes.any (·.id == id)

def hasEdge (d : Document κ) (id : EdgeId) : Bool := d.edges.any (·.id == id)

def nodeFault? (before : List Node) (n : Node) : Option (Corruption κ) :=
  if n.id ≠ n.expectedId then some (.nodeIdentity n.id n.signature)
  else if before.any (·.id == n.id) then some (.nodeRepeated n.id)
  else none

def edgeFault? (d : Document κ) (before : List (Edge κ)) (e : Edge κ) : Option (Corruption κ) :=
  if e.id ≠ EdgeId.of e.source e.target e.kind then some (.edgeIdentity e.id)
  else if before.any (·.id == e.id) then some (.edgeRepeated e.id)
  else if !Confidence.isUnit e.confidence then some (.edgeConfidence e.id e.confidence)
  else if !d.hasNode e.source then some (.edgeDangling e.id e.source)
  else if !d.hasNode e.target then some (.edgeDangling e.id e.target)
  else none

def placeholderFault? (d : Document κ) (path : String) (n : Node) : Option (Corruption κ) :=
  if !n.isStub || n.id ≠ n.expectedId then some (.placeholderInvalid path n.id)
  else if !d.hasNode n.id then some (.placeholderAstray path n.id)
  else none

/-- What is wrong with the entry of a file after those before it. -/
def entryFault? (d : Document κ) (before : List Entry) (e : Entry) : Option (Corruption κ) :=
  if before.any fun b => b.key == e.key || b.path == e.path then some (.provenanceRepeated e.path)
  else
    (e.nodeIds.find? fun id => !d.hasNode id).map (.nodeMissing e.path)
      <|> (e.edgeIds.find? fun id => !d.hasEdge id).map (.edgeMissing e.path)
      <|> e.placeholders.findSome? (d.placeholderFault? e.path)

def claimsNode (d : Document κ) (id : NodeId) : Bool :=
  d.provenance.any fun e => e.nodeIds.contains id || e.placeholders.any (·.id == id)

def claimsEdge (d : Document κ) (id : EdgeId) : Bool :=
  d.provenance.any fun e => e.edgeIds.contains id

/-- The first thing wrong with a document's content. -/
def corruption? (d : Document κ) : Option (Corruption κ) :=
  findSomeAfter? nodeFault? [] d.nodes
    <|> findSomeAfter? d.edgeFault? [] d.edges
    <|> findSomeAfter? d.entryFault? [] d.provenance
    <|> (d.nodes.find? fun n => !d.claimsNode n.id).map (.nodeUnclaimed ·.id)
    <|> (d.edges.find? fun e => !d.claimsEdge e.id).map (.edgeUnclaimed ·.id)

def fault? (d : Document κ) : Option (SaveError κ) :=
  if d.format ≠ currentFormat then some (.unsupported d.format)
  else d.corruption?.map .corrupt

def checked (d : Document κ) : Except (SaveError κ) (Document κ) :=
  match d.fault? with
  | some e => .error e
  | none => .ok d

/-! ### Back to contributions -/

def edgeOwners (d : Document κ) (id : EdgeId) : List String :=
  (d.provenance.filter (·.edgeIds.contains id)).map (·.path)

/-- What the file at a path says about an edge: the evidence of its own lines, and for the first of
the paths that contribute also the evidence of no contributing path. -/
def ownPart (d : Document κ) (path : String) (e : Edge κ) : Edge κ :=
  let owners := sortedSet (d.edgeOwners e.id)
  let isFirst := owners.head? == some path
  { e with
    evidence := e.evidence.filter fun ev => ev.file == path || (isFirst && !owners.contains ev.file) }

def contribution (d : Document κ) (e : Entry) : Contribution κ where
  key := e.key
  path := e.path
  nodes := e.nodeIds.filterMap fun id => d.nodes.find? (·.id == id)
  edges := e.edgeIds.filterMap fun id => (d.edges.find? (·.id == id)).map (d.ownPart e.path)
  placeholders := e.placeholders
  lookups := e.lookups

def contributions (d : Document κ) : List (Contribution κ) := d.provenance.map d.contribution

end Document

end AppAtlas
