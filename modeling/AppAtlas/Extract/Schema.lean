import AppAtlas.Finding
import AppAtlas.Json.Record
import AppAtlas.Sql.Schema
import AppAtlas.Text.Lines

/-! # Schema files

Tables and columns are defined by files of three forms: scripts with `CREATE TABLE`, tables of
column descriptions with a header line, and JSON arrays of the same descriptions. A table is known
by its name in small letters, without its schema.
-/

namespace AppAtlas.Extract

structure Column where
  name : String
  dataType : Option String
  nullable : Bool
  key : Option String
deriving DecidableEq, Repr

structure Table where
  schema : Option String
  name : String
  line : Nat
  columns : List Column
deriving DecidableEq, Repr

def Table.ofDeclared (t : Sql.DeclaredTable) : Table :=
  { schema := t.schema
    name := t.name
    line := t.line
    columns := t.columns.map fun c => ⟨c.name, c.dataType, c.nullable, c.key.map (·.name)⟩ }

def boolText (b : Bool) : String := if b then "true" else "false"

/-- Attributes, those without value left out. -/
def attributesOf (entries : List (String × Option String)) : Attributes :=
  Std.ExtTreeMap.ofList (entries.filterMap fun (k, v) => v.map (k, ·))

/-- The definition of a table; `origin` says what kind of file it comes from. -/
def Table.definition (t : Table) (origin : String) : Definition :=
  { kind := .table
    signature := Text.lowerString t.name
    name := t.name
    lines := .line t.line
    attributes := attributesOf
      [("source", some origin), ("columns", some (toString t.columns.length)), ("schema", t.schema)] }

def Column.definition (t : Table) (c : Column) : Definition :=
  let owner := Text.lowerString t.name
  { kind := .column
    signature := owner ++ "." ++ Text.lowerString c.name
    name := c.name
    owner := some owner
    lines := .line t.line
    attributes := attributesOf
      [("table", some owner), ("nullable", some (boolText c.nullable)), ("data_type", c.dataType),
        ("key", c.key)] }

variable {κ : Type}

/-- The findings with a definition added, unless it is there already. -/
def defineOnce (f : FindingSet κ) (d : Definition) : FindingSet κ :=
  if f.defines d.kind d.signature then f else f.define d

def addTables (origin : String) (tables : List Table) (f : FindingSet κ) : FindingSet κ :=
  tables.foldl (fun f t =>
    t.columns.foldl (fun f c => defineOnce f (c.definition t)) (defineOnce f (t.definition origin))) f

def addDeclaredTables (text : String) (f : FindingSet κ) : FindingSet κ :=
  let (tables, problems) := Sql.declaredTables text
  problems.foldl (fun f p => f.report p.line p.fault.message)
    (addTables "ddl" (tables.map .ofDeclared) f)

/-! ### Rows of column descriptions -/

structure SchemaRow where
  schema : Option String := none
  table : String := ""
  column : Option String := none
  dataType : Option String := none
  nullable : Option Bool := none
  key : Option String := none
deriving DecidableEq, Repr

def truth? (s : String) : Option Bool :=
  let word := String.ofList (Text.lower (Text.trim s.toList))
  if ["yes", "y", "true", "1"].contains word then some true
  else if ["no", "n", "false", "0"].contains word then some false
  else none

def filled? (s : String) : Option String :=
  let t := Text.trimString s
  if t.isEmpty then none else some t

def SchemaRow.column? (r : SchemaRow) : Option Column :=
  (r.column.bind filled?).map fun name =>
    { name := Text.lowerString name
      dataType := r.dataType
      nullable := r.nullable.getD true
      key := r.key.filter fun k => !k.isEmpty }

def addRow (tables : List Table) (line : Nat) (r : SchemaRow) : List Table :=
  match filled? r.table with
  | none => tables
  | some name =>
    let name := Text.lowerString name
    let columns := r.column?.toList
    if tables.any (·.name == name) then
      tables.map fun t => if t.name == name then { t with columns := t.columns ++ columns } else t
    else tables ++ [⟨r.schema, name, line, columns⟩]

def groupRows (rows : List (Nat × SchemaRow)) : List Table :=
  rows.foldl (fun tables (line, row) => addRow tables line row) []

/-! ### Rows in JSON -/

/-- The name of a field of a row, which catalogs spell in two ways. -/
def rowFieldName (name : String) : String :=
  match name with
  | "table_schema" => "schema"
  | "table_name" => "table"
  | "column_name" => "column"
  | "type" => "data_type"
  | "is_nullable" => "nullable"
  | "column_key" => "key"
  | _ => name

def SchemaRow.ofJson? (v : Json.Value) : Option SchemaRow := do
  let v := match v with
    | .object fields => Json.Value.object (fields.map fun (k, x) => (rowFieldName k, x))
    | _ => v
  let r ← v.record? ["schema", "table", "column", "data_type", "nullable", "key"]
  let text (name : String) : Option (Option String) :=
    r.defaulted name none (Json.Value.option? Json.Value.string?)
  let truth (v : Json.Value) : Option (Option Bool) :=
    match v with
    | .null => some none
    | .bool b => some (some b)
    | .string s => some (truth? s)
    | _ => none
  some
    { schema := ← text "schema"
      table := ← r.defaulted "table" "" Json.Value.string?
      column := ← text "column"
      dataType := ← text "data_type"
      nullable := ← r.defaulted "nullable" none truth
      key := ← text "key" }

def rowsOfJson? (text : String) : Option (List SchemaRow) := do
  (← Json.parse text).list? SchemaRow.ofJson?

def findingsOfRows (path : String) (rows : List SchemaRow) : FindingSet κ :=
  addTables "rows" (groupRows (rows.map (1, ·))) (.start path .schema)

/-! ### Rows on lines -/

/-- The fields of a line, the delimiter and a doubled quote being text between quotes. -/
def splitFields (delimiter : Char) (line : List Char) : List (List Char) :=
  (go false line).map Text.trim
where
  go (quoted : Bool) : List Char → List (List Char)
    | [] => [[]]
    | c :: cs =>
      if c = '"' then
        if quoted then
          match cs with
          | '"' :: rest => extend '"' (go true rest)
          | cs => go false cs
        else go true cs
      else if c = delimiter && !quoted then [] :: go quoted cs
      else extend c (go quoted cs)
  extend (c : Char) : List (List Char) → List (List Char)
    | [] => [[c]]
    | f :: fs => (c :: f) :: fs

structure Header where
  schema : Option Nat
  table : Option Nat
  column : Option Nat
  dataType : Option Nat
  nullable : Option Nat
  key : Option Nat

def Header.of (fields : List (List Char)) : Header :=
  let names := fields.map fun f => String.ofList (Text.lower f)
  let position (spellings : List String) := names.findIdx? spellings.contains
  { schema := position ["table_schema", "schema"]
    table := position ["table_name", "table"]
    column := position ["column_name", "column"]
    dataType := position ["data_type", "type"]
    nullable := position ["is_nullable", "nullable"]
    key := position ["column_key", "key"] }

def Header.row? (h : Header) (fields : List (List Char)) : Option SchemaRow :=
  let get (place : Option Nat) : Option String := do
    let field ← fields[← place]?
    if field.isEmpty then none else some (String.ofList field)
  (get h.table).map fun table =>
    { schema := get h.schema
      table := table
      column := get h.column
      dataType := get h.dataType
      nullable := (get h.nullable).bind truth?
      key := get h.key }

def filledLines (text : List Char) : List (Nat × List Char) :=
  ((Text.linesOf text).zipIdx 1).filterMap fun (line, n) =>
    if (Text.trim line).isEmpty then none else some (n, line)

def findingsOfDelimited (delimiter : Char) (path content : String) : FindingSet κ :=
  let start : FindingSet κ := .start path .schema
  match filledLines content.toList with
  | [] => start
  | (_, header) :: lines =>
    let h := Header.of (splitFields delimiter header)
    if h.table.isNone then start.report 1 "header has no table_name column"
    else
      let rows := lines.map fun (n, line) => (n, h.row? (splitFields delimiter line))
      let faults := rows.filterMap fun (n, row) => if row.isNone then some n else none
      let start := faults.foldl (fun f n => f.report n "row has no table name") start
      addTables "rows" (groupRows (rows.filterMap fun (n, row) => row.map (n, ·))) start

/-- The findings of rows written as JSON. The report of rows that cannot be read ends where the
reader of JSON would say what it found: that text is left out. -/
def findingsOfJson (path content : String) : FindingSet κ :=
  match rowsOfJson? content with
  | some rows =>
    let f : FindingSet κ := findingsOfRows path rows
    if rows.any fun r => (filled? r.table).isNone then
      f.report 1 "rows without a table name were skipped"
    else f
  | none => (FindingSet.start path .schema).report 1 "invalid schema rows:"

def hasExtension (path : String) (extensions : List String) : Bool :=
  match FilePath.extension? path.toList with
  | some ext => extensions.any fun e => Text.sameLetters e.toList ext
  | none => false

def schemaFindings (path content : String) : FindingSet κ :=
  if hasExtension path ["json"] then findingsOfJson path content
  else if hasExtension path ["csv"] then findingsOfDelimited ',' path content
  else if hasExtension path ["tsv"] then findingsOfDelimited '\t' path content
  else addDeclaredTables content (.start path .schema)

end AppAtlas.Extract
