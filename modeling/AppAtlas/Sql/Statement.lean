import AppAtlas.Extract.Options
import AppAtlas.Finding
import AppAtlas.Sql.Usage

/-! # Findings of a statement

A SQL statement, wherever its text comes from, is one definition. It refers to each table it uses
and to each column it mentions, with a confidence that sinks with the number of substitutions in
its text.
-/

namespace AppAtlas.Sql

def compact (text : String) : String :=
  Text.onString (fun cs => Text.joinWith [' '] (Text.words cs)) text

def looksLikeSql (text : String) : Bool :=
  let first := (text.toList.dropWhile Text.isBlank).takeWhile Char.isAlpha
  ["select", "insert", "update", "delete", "merge", "with", "replace", "truncate"].contains
    (String.ofList (Text.lower first))

structure Statement where
  signature : String
  name : String
  lines : LineRange
  text : String
  /-- Places outside the text itself where it can vary. -/
  variation : Nat := 0
  attributes : Attributes := ∅

namespace Statement

variable {κ : Type} [Confidence κ]

def lineAt (s : Statement) (line : Nat) : Nat :=
  max s.lines.start 1 + (line - 1)

/-- The definition of a statement. Attributes given with the statement win over those read from
its text. -/
def definition (s : Statement) (u : Usage) : Definition :=
  let read : Attributes := Std.ExtTreeMap.ofList
    ([("dynamic_fragments", toString (u.fragments + s.variation)), ("sql", compact s.text)] ++
      (u.operation.map ("operation", ·)).toList)
  { kind := .statement
    signature := s.signature
    name := s.name
    lines := s.lines
    attributes := read.insertMany s.attributes.toList }

def tableReference (s : Statement) (confidence : κ) (t : TableUse) : Reference κ :=
  let edge := match t.access with
    | .read => .reads
    | .write => .writes
  let target := if t.pattern then .tablePattern t.name else .table t.name
  let r := (Reference.of .statement s.signature edge target (s.lineAt t.line)).withConfidence confidence
  { r with note := t.schema.map ("schema " ++ ·) }

def columnReference (s : Statement) (confidence : κ) (c : ColumnUse) : Reference κ :=
  (Reference.of .statement s.signature .mentions (.column c.table c.name c.candidates)
    (s.lineAt c.line)).withConfidence confidence

def addTo (s : Statement) (options : Extract.Options κ) (f : FindingSet κ) : FindingSet κ :=
  let u := analyze s.text
  let confidence := options.dynamicConfidence (u.fragments + s.variation)
  { f with
    definitions := f.definitions ++ [s.definition u]
    issues := f.issues ++ u.problems.map fun p =>
      ⟨s.lineAt p.line, s.signature ++ ": " ++ p.fault.message⟩
    references := f.references ++ u.tables.map (s.tableReference confidence) ++
      u.columns.map (s.columnReference confidence) }

end Statement

end AppAtlas.Sql
