import AppAtlas.Extract.Schema
import AppAtlas.Markup.Region
import AppAtlas.Sql.Script
import AppAtlas.Sql.Template

/-! # SQL files

A script holds statements one after another, known by their position, and may declare tables. A
mapper file holds statements with names of their own, as templates; the namespace of the file and
the name of a statement together are its identity.
-/

namespace AppAtlas.Extract

open Text (Pattern)

variable {κ : Type} [Confidence κ]

/-- The stem of a file's name, or the whole path if it names no file. -/
def fileStem (path : String) : String :=
  match FilePath.stem? path.toList with
  | some stem => String.ofList stem
  | none => path

def scriptFindings (options : Options κ) (path content : String) : FindingSet κ :=
  let start : FindingSet κ := .start path .sql
  let statements := (Sql.Script.split content.toList).filter fun s =>
    Sql.looksLikeSql (String.ofList (Sql.Script.stripComments s.text))
  let f := (statements.zipIdx 1).foldl (fun f (s, n) =>
    let statement : Sql.Statement :=
      { signature := start.path ++ "#" ++ toString n
        name := fileStem path ++ "#" ++ toString n
        lines := .of s.start s.stop
        text := String.ofList s.text }
    statement.addTo options f) start
  addDeclaredTables content f

/-! ### Mapper files -/

/-- An opening tag of a name, its attributes being kept. -/
def tagPattern (name : Pattern) : Pattern :=
  .sequence [.word "<", name, .edge, .keep 2 (.many true (.noneOf ">")), .word ">"]

def mapperPattern : Pattern := tagPattern (.word "mapper")

def fragmentPattern : Pattern := tagPattern (.word "sql")

def statementPattern : Pattern :=
  tagPattern (.keep 1 (.choice [.word "select", .word "insert", .word "update", .word "delete"]))

def tagAttributes (m : Text.Match) : Attributes :=
  Markup.attributes (((m.piece? 2).map (·.text)).getD [])

def namespace? (text : List Char) : Option String := do
  let m ← mapperPattern.find? text
  filled? (← (tagAttributes m)["namespace"]?)

/-- The findings of a mapper file with one fragment more, or a fragment that is not closed. -/
def addFragment (lines : Text.Lines) (known : Sql.Template.Fragments × FindingSet κ)
    (m : Text.Match) : Sql.Template.Fragments × FindingSet κ :=
  let (fragments, f) := known
  match (tagAttributes m)["id"]? with
  | none => known
  | some id =>
    match Text.cut "</sql>".toList m.after.rest with
    | some (body, _) => (fragments.insert id body, f)
    | none => (fragments, f.report (lines.lineOf m.whole.offset) ("unterminated <sql> fragment " ++ id))

def addMapperStatement (options : Options κ) (lines : Text.Lines) (space : String)
    (fragments : Sql.Template.Fragments) (f : FindingSet κ) (m : Text.Match) : FindingSet κ :=
  let start := lines.lineOf m.whole.offset
  let tag := m.text 1
  if (Text.stripEnd? ['/', '>'] m.whole.text).isSome then f
  else
    match (tagAttributes m)["id"]? with
    | none => f.report start ("<" ++ tag ++ "> without id")
    | some id =>
      match Text.cut ("</" ++ tag ++ ">").toList m.after.rest with
      | none => f.report start ("unterminated <" ++ tag ++ "> " ++ id)
      | some (body, _) =>
        let flat := Sql.Template.flatten fragments body
        let statement : Sql.Statement :=
          { signature := space ++ "." ++ id
            name := id
            lines := .of start (lines.lineOf (m.stop + Text.byteSize body))
            text := String.ofList flat.text
            variation := flat.variation
            attributes := attributesOf [("statement_type", some tag), ("namespace", some space)] }
        let f := flat.faults.foldl (fun f fault =>
          f.report start (statement.signature ++ ": " ++ fault.message)) f
        statement.addTo options f

def mapperFileFindings (options : Options κ) (path content : String) : FindingSet κ :=
  let lines := Text.Lines.of content.toList
  let (text, unclosed) := Markup.blankRegions "<!--".toList "-->".toList content.toList
  let f : FindingSet κ := unclosed.foldl (fun f offset =>
    f.report (lines.lineOf offset) "unterminated XML comment") (.start path .sql)
  let (space, f) :=
    match namespace? text with
    | some space => (space, f)
    | none => (fileStem path, f.report 1 "mapper has no namespace")
  let f := { f with scope := (Text.cutLast '.' space.toList).map fun (p, _) => String.ofList p }
  let (fragments, f) := (fragmentPattern.findAll text).foldl (addFragment lines) (∅, f)
  (statementPattern.findAll text).foldl (addMapperStatement options lines space fragments) f

def sqlFindings (options : Options κ) (path content : String) : FindingSet κ :=
  if hasExtension path ["xml"] then mapperFileFindings options path content
  else scriptFindings options path content

end AppAtlas.Extract
