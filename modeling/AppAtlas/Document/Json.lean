import AppAtlas.Document.Basic
import AppAtlas.Json.Record

/-! # Documents in JSON

Nodes, edges and documents as JSON values and back. Writing takes how numbers are to be shown as a
parameter, since a file shows them as decimals and other places may want all their bits.
-/

namespace AppAtlas

open Json (Value)

/-! ### Writing -/

def Json.Value.ofList {α : Type} (write : α → Value) (items : List α) : Value :=
  .array (items.map write)

def LineRange.toJson (r : LineRange) : Value :=
  .object [("start", .ofNat r.start), ("end", .ofNat r.stop)]

def Attributes.toJson (attributes : Attributes) : Value :=
  .object (attributes.toList.map fun (k, v) => (k, .string v))

def Node.toJson (n : Node) : Value :=
  .object
    [("id", .string n.id.text), ("kind", .string n.kind.name), ("source_file", .ofString? n.file),
      ("line_range", n.lines.toJson), ("signature", .string n.signature), ("name", .string n.name),
      ("attributes", Attributes.toJson n.attributes)]

/-- Evidence as a value. A note and candidates are written only if there are any. -/
def Evidence.toJson (e : Evidence) : Value :=
  .object
    ([("file", .string e.file), ("line", .ofNat e.line)]
      ++ (e.note.map fun n => ("note", Value.string n)).toList
      ++ (if e.candidates.isEmpty then [] else [("candidates", .ofStrings e.candidates)]))

def Edge.toJson {κ : Type} (number : κ → Value) (e : Edge κ) : Value :=
  .object
    [("id", .string e.id.text), ("source", .string e.source.text),
      ("target", .string e.target.text), ("kind", .string e.kind.name),
      ("confidence", number e.confidence), ("evidence", .ofList Evidence.toJson e.evidence)]

def LookupKey.toJson (k : LookupKey) : Value :=
  let name :=
    match k with
    | .kind sort => sort.name
    | k => k.name
  .object [("key", .string k.sort), ("name", .string name)]

def LookupKeys.toJson (keys : LookupKeys) : Value := .ofList LookupKey.toJson keys.toList

def Entry.toJson (e : Entry) : Value :=
  .object
    [("file_key", .string e.key.text), ("path", .string e.path),
      ("node_ids", .ofList (fun id => .string id.text) e.nodeIds),
      ("edge_ids", .ofList (fun id => .string id.text) e.edgeIds),
      ("placeholders", .ofList Node.toJson e.placeholders),
      ("lookups", LookupKeys.toJson e.lookups)]

def Document.toJson {κ : Type} (number : κ → Value) (d : Document κ) : Value :=
  .object
    ([("format_version", .ofNat d.format), ("version", .ofNat d.version)]
      ++ (d.savedAt.map fun t => ("saved_at", Value.string t.text)).toList
      ++ [("nodes", .ofList Node.toJson d.nodes), ("edges", .ofList (Edge.toJson number) d.edges),
        ("provenance", .ofList Entry.toJson d.provenance)])

/-! ### Reading -/

namespace Json.Value

def nodeId? (v : Value) : Option NodeId := do (NodeId.parse (← v.string?)).toOption

def edgeId? (v : Value) : Option EdgeId := do (EdgeId.parse (← v.string?)).toOption

def nodeKind? (v : Value) : Option NodeKind := v.constant?.bind NodeKind.ofName?

def edgeKind? (v : Value) : Option EdgeKind := v.constant?.bind EdgeKind.ofName?

def lineRange? (v : Value) : Option LineRange := do
  let r ← v.record? ["start", "end"]
  some ⟨← r.required "start" (natural? 32), ← r.required "end" (natural? 32)⟩

/-- Attributes; of several for one name the last counts. -/
def attributes? (v : Value) : Option Attributes := do
  some (Std.ExtTreeMap.ofList (← v.entries? string?) compare)

def node? (v : Value) : Option Node := do
  let r ← v.record? ["id", "kind", "source_file", "line_range", "signature", "name", "attributes"]
  some
    { id := ← r.required "id" nodeId?
      kind := ← r.required "kind" nodeKind?
      file := ← r.optional "source_file" string?
      lines := ← r.required "line_range" lineRange?
      signature := ← r.required "signature" string?
      name := ← r.required "name" string?
      attributes := ← r.required "attributes" attributes? }

def evidence? (v : Value) : Option Evidence := do
  let r ← v.record? ["file", "line", "note", "candidates"]
  some
    { file := ← r.required "file" string?
      line := ← r.required "line" (natural? 32)
      note := ← r.defaulted "note" none (option? string?)
      candidates := ← r.defaulted "candidates" [] (list? string?) }

def edge? (v : Value) : Option (Edge Float) := do
  let r ← v.record? ["id", "source", "target", "kind", "confidence", "evidence"]
  some
    { id := ← r.required "id" edgeId?
      source := ← r.required "source" nodeId?
      target := ← r.required "target" nodeId?
      kind := ← r.required "kind" edgeKind?
      confidence := ← r.required "confidence" float?
      evidence := ← r.required "evidence" (list? evidence?) }

def lookupKey? (v : Value) : Option LookupKey := do
  let r ← v.record? ["key", "name"]
  let sort ← r.required "key" string?
  let named := fun (make : String → LookupKey) => (r.required "name" string?).map make
  match sort with
  | "member" => named .member
  | "type" => named .type
  | "statement" => named .statement
  | "page" => named .page
  | "route" => named .route
  | "route_tail" => named .routeTail
  | "table" => named .table
  | "column" => named .column
  | "kind" => (r.required "name" nodeKind?).map .kind
  | _ => none

def lookupKeys? (v : Value) : Option LookupKeys := do
  some (Std.ExtTreeSet.ofList (← v.list? lookupKey?) compare)

def entry? (v : Value) : Option Entry := do
  let r ← v.record? ["file_key", "path", "node_ids", "edge_ids", "placeholders", "lookups"]
  some
    { key := ⟨← r.required "file_key" string?⟩
      path := ← r.required "path" string?
      nodeIds := ← r.required "node_ids" (list? nodeId?)
      edgeIds := ← r.required "edge_ids" (list? edgeId?)
      placeholders := ← r.required "placeholders" (list? node?)
      lookups := ← r.required "lookups" lookupKeys? }

def timestamp? (v : Value) : Option Timestamp := v.string?.bind Timestamp.parseLoosely?

def document? (v : Value) : Option (Document Float) := do
  let r ← v.record? ["format_version", "version", "saved_at", "nodes", "edges", "provenance"]
  some
    { format := ← r.required "format_version" (natural? 32)
      version := ← r.required "version" (natural? 64)
      savedAt := ← r.defaulted "saved_at" none (option? timestamp?)
      nodes := ← r.required "nodes" (list? node?)
      edges := ← r.required "edges" (list? edge?)
      provenance := ← r.required "provenance" (list? entry?) }

def contribution? (v : Value) : Option (Contribution Float) := do
  let r ← v.record? ["file_key", "path", "nodes", "edges", "placeholders", "lookups"]
  some
    { key := ⟨← r.required "file_key" string?⟩
      path := ← r.required "path" string?
      nodes := ← r.required "nodes" (list? node?)
      edges := ← r.required "edges" (list? edge?)
      placeholders := ← r.required "placeholders" (list? node?)
      lookups := ← r.required "lookups" lookupKeys? }

end Json.Value

/-! ### Files -/

namespace Document

def decimal (x : Float) : Value :=
  if x.isFinite then .number (.real x) else .null

def toText (d : Document Float) : String := (d.toJson decimal).render ++ "\n"

def ofText (text : String) : Except (SaveError Float) (Document Float) :=
  match (Json.parse text).bind Value.document? with
  | some d => d.checked
  | none => .error (.corrupt .unreadable)

end Document

end AppAtlas
