import AppAtlas.Document.Cell
import AppAtlas.Document.Json

/-! # Documents in a database

A document is kept in five tables: general values by name, nodes, edges, the files, and which file
contributed which node or edge. Lists and attributes are kept as JSON texts. Rows are read back in
the order of their keys.
-/

namespace AppAtlas

/-! ### Tables -/

abbrev Row := List Cell

structure Column where
  affinity : Affinity
  /-- Whether a cell may hold nothing. -/
  nullable : Bool := false

/-- The form of a table: its columns, and the groups of columns in which no two rows may agree. -/
structure TableForm where
  columns : List Column
  unique : List (List Nat)

namespace TableForm

def texts : Column := { affinity := .text }

def someTexts : Column := { affinity := .text, nullable := true }

def lines : Column := { affinity := .integer }

def values : TableForm := ⟨[someTexts, texts], [[0]]⟩

/-- Nodes: identity, kind, file, first and last line, signature, name, attributes. -/
def nodes : TableForm :=
  ⟨[someTexts, texts, someTexts, lines, lines, texts, texts, texts], [[0]]⟩

/-- Edges: identity, source, target, kind, confidence, evidence. -/
def edges : TableForm :=
  ⟨[someTexts, texts, texts, texts, { affinity := .real }, texts], [[0]]⟩

/-- Files: key, path, placeholders, lookups. -/
def files : TableForm := ⟨[someTexts, texts, texts, texts], [[0], [1]]⟩

/-- Contributed nodes and edges: file key, role, identity. -/
def members : TableForm := ⟨[texts, texts, texts], [[0, 1, 2]]⟩

def pick (row : Row) (columns : List Nat) : Row := columns.map fun i => row.getD i .null

/-- Whether two rows agree in a group of columns; cells that hold nothing never agree. -/
def agree (columns : List Nat) (a b : Row) : Bool :=
  pick a columns == pick b columns && !(pick a columns).contains .null

/-- Whether a row cannot be added to others because it repeats one. -/
def repeats (t : TableForm) (rows : List Row) (row : Row) : Bool :=
  t.unique.any fun columns => rows.any (agree columns row)

def keep? (t : TableForm) (row : Row) : Option Row := do
  let kept := List.zipWith (fun c cell => Cell.store c.affinity cell) t.columns row
  guard ((List.zipWith (fun c cell => c.nullable || cell != .null) t.columns kept).all id)
  some kept

def insert? (t : TableForm) (rows : List Row) (row : Row) : Option (List Row) := do
  let kept ← t.keep? row
  if t.repeats rows kept then none else some (rows ++ [kept])

def insertAll? (t : TableForm) (rows : List Row) : Option (List Row) := rows.foldlM t.insert? []

end TableForm

structure Database where
  values : List Row := []
  nodes : List Row := []
  edges : List Row := []
  files : List Row := []
  members : List Row := []

namespace Database

def ofRows? (rows : Database) : Option Database := do
  some
    { values := ← TableForm.values.insertAll? rows.values
      nodes := ← TableForm.nodes.insertAll? rows.nodes
      edges := ← TableForm.edges.insertAll? rows.edges
      files := ← TableForm.files.insertAll? rows.files
      members := ← TableForm.members.insertAll? rows.members }

/-! ### Writing -/

def nodeRole : String := "node"

def edgeRole : String := "edge"

def valueRows (d : Document Float) : List Row :=
  [[.text "schema_version", .text "1"], [.text "format_version", .text (toString d.format)],
    [.text "version", .text (toString d.version)]]
    ++ (d.savedAt.map fun t => [Cell.text "saved_at", .text t.numericText]).toList

def nodeRow (n : Node) : Row :=
  [.text n.id.text, .text n.kind.name, n.file.elim .null .text, .integer n.lines.start,
    .integer n.lines.stop, .text n.signature, .text n.name,
    .text (Attributes.toJson n.attributes).render]

def edgeRow (e : Edge Float) : Row :=
  [.text e.id.text, .text e.source.text, .text e.target.text, .text e.kind.name, .real e.confidence,
    .text (Json.Value.ofList Evidence.toJson e.evidence).render]

def fileRow (e : Entry) : Row :=
  [.text e.key.text, .text e.path, .text (Json.Value.ofList Node.toJson e.placeholders).render,
    .text (LookupKeys.toJson e.lookups).render]

def memberRows (e : Entry) : List Row :=
  e.nodeIds.map (fun id => [.text e.key.text, .text nodeRole, .text id.text])
    ++ e.edgeIds.map fun id => [.text e.key.text, .text edgeRole, .text id.text]

def endsPresent (d : Document Float) : Bool :=
  d.edges.all fun e => d.hasNode e.source && d.hasNode e.target

/-- The database of a document. A key that is repeated, or an edge with an end that is not there, is
refused; a repeated contribution is written once. -/
def ofDocument (d : Document Float) : Except (SaveError Float) Database :=
  let rows : Database :=
    { values := valueRows d
      nodes := d.nodes.map nodeRow
      edges := d.edges.map edgeRow
      files := d.provenance.map fileRow
      members := distinct (d.provenance.flatMap memberRows) }
  match if endsPresent d then ofRows? rows else none with
  | some db => .ok db
  | none => .error .database

/-! ### Reading -/

abbrev Reading := Except (SaveError Float)

def cell {α : Type} (read : Cell → Option α) (row : Row) (i : Nat) : Reading α :=
  match read (row.getD i .null) with
  | some a => .ok a
  | none => .error .database

def sound {α : Type} (cause : Corruption Float) : Option α → Reading α
  | some a => .ok a
  | none => .error (.corrupt cause)

def json {α : Type} (read : Json.Value → Option α) (text : String) : Reading α :=
  sound .unreadable ((Json.parse text).bind read)

def nodeId (text : String) : Reading NodeId := sound (.badId text) (NodeId.parse text).toOption

def edgeId (text : String) : Reading EdgeId := sound (.badId text) (EdgeId.parse text).toOption

def sortedBy (columns : List Nat) (rows : List Row) : List Row :=
  let key := fun (row : Row) => (TableForm.pick row columns).map fun c => c.text?
  rows.mergeSort fun a b => (compare (key a) (key b)).isLE

def value? (db : Database) (name : String) : Reading (Option String) :=
  match db.values.find? fun row => row.head? == some (.text name) with
  | some row => return some (← cell Cell.text? row 1)
  | none => return none

def number (db : Database) (name : String) (bits : Nat) : Reading Nat := do
  let text ← sound (.fieldMissing name) (← db.value? name)
  sound .unreadable (readNatural 10 (Nat.pow 2 bits) text.toList).toOption

def savedAt (db : Database) : Reading (Option Timestamp) := do
  match ← db.value? "saved_at" with
  | some text => return some (← sound .unreadable (Timestamp.parse? text))
  | none => return none

def node (row : Row) : Reading Node := do
  let id ← cell Cell.text? row 0
  let kind ← cell Cell.text? row 1
  let attributes ← cell Cell.text? row 7
  return {
    id := ← nodeId id
    kind := ← sound (.badNodeKind kind) (NodeKind.parse? kind)
    file := ← cell Cell.optionalText? row 2
    lines := LineRange.of (← cell Cell.line? row 3) (← cell Cell.line? row 4)
    signature := ← cell Cell.text? row 5
    name := ← cell Cell.text? row 6
    attributes := ← json Json.Value.attributes? attributes }

def edge (row : Row) : Reading (Edge Float) := do
  let id ← cell Cell.text? row 0
  let source ← cell Cell.text? row 1
  let target ← cell Cell.text? row 2
  let kind ← cell Cell.text? row 3
  let evidence ← cell Cell.text? row 5
  return {
    id := ← edgeId id
    source := ← nodeId source
    target := ← nodeId target
    kind := ← sound (.badEdgeKind kind) (EdgeKind.parse? kind)
    confidence := ← cell Cell.float? row 4
    evidence := ← json (Json.Value.list? Json.Value.evidence?) evidence }

def addMember (e : Entry) (row : Row) : Reading Entry := do
  let role ← cell Cell.text? row 1
  let id ← cell Cell.text? row 2
  if role = nodeRole then return { e with nodeIds := e.nodeIds ++ [← nodeId id] }
  else if role = edgeRole then return { e with edgeIds := e.edgeIds ++ [← edgeId id] }
  else throw (.corrupt (.badRole role))

def entry (db : Database) (row : Row) : Reading Entry := do
  let key ← cell Cell.text? row 0
  let placeholders ← cell Cell.text? row 2
  let lookups ← cell Cell.text? row 3
  let start : Entry := {
    key := ⟨key⟩
    path := ← cell Cell.text? row 1
    nodeIds := []
    edgeIds := []
    placeholders := ← json (Json.Value.list? Json.Value.node?) placeholders
    lookups := ← json Json.Value.lookupKeys? lookups }
  let rows := db.members.filter fun r => r.head? == some (.text key)
  (sortedBy [1, 2] rows).foldlM addMember start

def document (db : Database) : Reading (Document Float) := do
  return {
    format := ← db.number "format_version" 32
    version := ← db.number "version" 64
    savedAt := ← db.savedAt
    nodes := ← (sortedBy [0] db.nodes).mapM node
    edges := ← (sortedBy [0] db.edges).mapM edge
    provenance := ← (sortedBy [1] db.files).mapM db.entry }

def load (db : Database) : Reading (Document Float) := do (← db.document).checked

end Database

end AppAtlas
