import AppAtlas.Markup.Attribute
import AppAtlas.Sql.Statement

/-! # Statement templates

In a mapper file the text of a statement is a template: SQL with tags in it that include fragments,
add keywords, or hold parts that depend on parameters. `flatten` makes it plain SQL. A part that may
or may not be there is kept and counted, a key selection is dropped, and what is wrong is noted.
-/

namespace AppAtlas.Sql.Template

inductive Fault where
  | openSection
  | openKeySelection
  | tooDeep (fragment : String)
  | unknownFragment (fragment : String)
deriving DecidableEq, Repr

def Fault.message : Fault → String
  | openSection => "unterminated CDATA section"
  | openKeySelection => "unterminated <selectKey>"
  | tooDeep fragment => "<include> nesting too deep at " ++ fragment
  | unknownFragment fragment => "unknown sql fragment " ++ fragment

structure Flat where
  text : List Char := []
  /-- The number of parts that may or may not be there. -/
  variation : Nat := 0
  faults : List Fault := []
deriving DecidableEq, Repr

namespace Flat

def write (f : Flat) (cs : List Char) : Flat := { f with text := f.text ++ cs }

def note (f : Flat) (fault : Fault) : Flat := { f with faults := f.faults ++ [fault] }

/-- One more part that may or may not be there. -/
def vary (f : Flat) : Flat := { f with variation := f.variation + 1 }

/-- The white space at the end dropped, and the commas before it. -/
def dropCommas (f : Flat) : Flat :=
  { f with text := Text.dropEnd (· == ',') (Text.trimEnd f.text) }

end Flat

/-- The number of characters before the `>` that closes a tag, `quote` being the open quote. -/
def tagSize? (quote : Option Char) : List Char → Option Nat
  | [] => none
  | c :: cs =>
    match quote with
    | some q => (tagSize? (if c = q then none else some q) cs).map (· + 1)
    | none =>
      if c == '"' || c == '\'' then (tagSize? (some c) cs).map (· + 1)
      else if c = '>' then some 0
      else if c = '<' then none
      else (tagSize? none cs).map (· + 1)

/-- The tag whose `<` was just passed: its inner text, and what follows. A sign that starts no tag
is a comparison. -/
def tag? (cs : List Char) : Option (List Char × List Char) :=
  if cs.head?.any fun c => c.isAlpha || c == '/' then
    (tagSize? none cs).map fun n => (cs.take n, cs.drop (n + 1))
  else none

/-- The inner text of a tag taken apart. -/
structure Tag where
  closing : Bool
  name : String
  attributes : Attributes

def Tag.of (raw : List Char) : Tag :=
  let inner := Text.trim (Text.trimWhere (· == '/') raw)
  let (name, rest) := (Text.cutWhere Text.isBlank inner).getD (inner, [])
  ⟨raw.head? == some '/', String.ofList (Text.lower name), Markup.attributes rest⟩

/-- Texts to be written at closing tags, the innermost first. -/
abbrev Closers := List (String × List Char)

def takeCloser (name : String) : Closers → Option (List Char × Closers)
  | [] => none
  | (n, text) :: rest =>
    if n = name then some (text, rest)
    else (takeCloser name rest).map fun (found, rest) => (found, (n, text) :: rest)

def afterKeySelection? (cs : List Char) : Option (List Char) :=
  (Text.cut "</selectkey>".toList (Text.lower cs)).map fun (_, after) =>
    cs.drop (cs.length - after.length)

/-- An attribute's text behind a space, if it is there. -/
def spaced (attrs : Attributes) (key : String) : List Char :=
  match attrs[key]? with
  | some value => ' ' :: value.toList
  | none => []

/-- What an opening tag does, apart from inclusion and key selection. -/
def openTag (t : Tag) (f : Flat) (closers : Closers) : Flat × Closers :=
  let closer (key : String) : Closers :=
    (t.name, ((t.attributes[key]?).getD "").toList) :: closers
  match t.name with
  | "where" => (f.write " WHERE ".toList, closers)
  | "set" => (f.write " SET ".toList, closers)
  | "trim" => (f.write (spaced t.attributes "prefix"), closer "suffix")
  | "foreach" => (f.vary.write (spaced t.attributes "open"), closer "close")
  | "if" | "when" | "otherwise" | "bind" => (f.vary, closers)
  | _ => (f, closers)

def closeTag (t : Tag) (f : Flat) (closers : Closers) : Flat × Closers :=
  let f := if t.name = "set" then f.dropCommas else f
  match takeCloser t.name closers with
  | some (text, rest) => ((f.write (' ' :: text)).write [' '], rest)
  | none => (f.write [' '], closers)

/-- A template flattened behind what `f` holds. `including` does what an inclusion does; `fuel` is
more than the number of characters left. -/
def run (including : String → Flat → Flat) : Nat → Closers → List Char → Flat → Flat
  | 0, _, _, f => f
  | fuel + 1, closers, rest, f =>
    match Text.cutWhere (· == '<') rest with
    | none => f.write (Markup.decodeEntities rest)
    | some (before, behind) =>
      let f := f.write (Markup.decodeEntities before)
      match "![CDATA[".toList.isPrefixOf? behind with
      | some inside =>
        match Text.cut "]]>".toList inside with
        | some (raw, rest) => run including fuel closers rest (f.write raw)
        | none => (f.note .openSection).write inside
      | none =>
        match tag? behind with
        | none => run including fuel closers behind (f.write ['<'])
        | some (raw, rest) =>
          let t := Tag.of raw
          if t.closing then
            let (f, closers) := closeTag t f closers
            run including fuel closers rest f
          else if t.name = "include" then
            let f := including ((t.attributes["refid"]?).getD "") f
            run including fuel closers rest (f.write [' '])
          else if t.name = "selectkey" then
            match afterKeySelection? rest with
            | some rest => run including fuel closers rest (f.write [' '])
            | none => f.note .openKeySelection
          else
            let (f, closers) := openTag t f closers
            run including fuel closers rest (f.write [' '])

abbrev Fragments := Std.ExtTreeMap String (List Char) compare

/-- The fragment of a name, or of the part of it behind its last dot. -/
def fragment? (fragments : Fragments) (name : String) : Option (List Char) :=
  (fragments[name]?).orElse fun _ =>
    (Text.cutLast '.' name.toList).bind fun (_, last) => fragments[String.ofList last]?

/-- A template flattened, with inclusions nested at most `depth` deep. -/
def runNested (fragments : Fragments) : Nat → List Char → Flat → Flat
  | 0, body, f => run (fun name f => f.note (.tooDeep name)) (body.length + 1) [] body f
  | depth + 1, body, f =>
    run (fun name f =>
      match fragment? fragments name with
      | some inner => (runNested fragments depth inner (f.write [' '])).write [' ']
      | none => (f.note (.unknownFragment name)).vary) (body.length + 1) [] body f

def maxDepth : Nat := 8

def flatten (fragments : Fragments) (body : List Char) : Flat :=
  let f := runNested fragments maxDepth body {}
  { f with text := Text.joinWith [' '] (Text.words f.text) }

end AppAtlas.Sql.Template
