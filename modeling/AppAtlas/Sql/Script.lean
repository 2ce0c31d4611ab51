import AppAtlas.Text.Blank
import AppAtlas.Text.Lines

/-! # SQL scripts

A script is a sequence of statements. It is cut at the semicolons outside quotes and comments; each
piece in which something is left besides comments is a statement. The text of a statement starts
behind the white space and the comments before it.
-/

namespace AppAtlas.Sql.Script

inductive Mode where
  | plain
  /-- Inside quotes, which the same mark closes. -/
  | quoted (mark : Char)
  | lineComment
  | blockComment
deriving DecidableEq, Repr

structure Part where
  text : List Char
  /-- The line ends in it, those behind a backslash in quotes not being counted. There are no more of
  them than characters. -/
  lines : Nat
deriving DecidableEq, Repr

def extend (cs : List Char) (lines : Nat) : List Part → List Part
  | [] => [⟨cs, lines⟩]
  | p :: ps => ⟨cs ++ p.text, lines + p.lines⟩ :: ps

def isQuote (c : Char) : Bool :=
  c == '\'' || c == '"' || c == '\x60'

def lineEnds (c : Char) : Nat :=
  if c = '\n' then 1 else 0

def parts : Mode → List Char → List Part
  | _, [] => [⟨[], 0⟩]
  | .plain, '-' :: '-' :: cs => extend ['-', '-'] 0 (parts .lineComment cs)
  | .plain, '/' :: '*' :: cs => extend ['/', '*'] 0 (parts .blockComment cs)
  | .plain, c :: cs =>
    if c = ';' then ⟨[], 0⟩ :: parts .plain cs
    else if isQuote c then extend [c] 0 (parts (.quoted c) cs)
    else extend [c] (lineEnds c) (parts .plain cs)
  | .quoted mark, '\\' :: c :: cs => extend ['\\', c] 0 (parts (.quoted mark) cs)
  | .quoted mark, c :: cs =>
    if c = mark then extend [c] 0 (parts .plain cs)
    else extend [c] (lineEnds c) (parts (.quoted mark) cs)
  | .lineComment, c :: cs =>
    extend [c] (lineEnds c) (parts (if c = '\n' then .plain else .lineComment) cs)
  | .blockComment, '*' :: '/' :: cs => extend ['*', '/'] 0 (parts .plain cs)
  | .blockComment, c :: cs => extend [c] (lineEnds c) (parts .blockComment cs)

/-! ### Comments -/

/-- The text outside block comments. Each opening starts a comment, even inside one. An end that
shares its slash with an opening is no end. -/
def outsideBlocks (inside : Bool) : List Char → List Char
  | [] => []
  | '/' :: '*' :: cs => outsideBlocks true cs
  | '*' :: '/' :: '*' :: cs => (if inside then [] else ['*']) ++ outsideBlocks true cs
  | '*' :: '/' :: cs => (if inside then [] else ['*', '/']) ++ outsideBlocks false cs
  | c :: cs => (if inside then [] else [c]) ++ outsideBlocks inside cs

/-- A text without its comments. Quotes are not looked at, so this is an approximation; it is good
enough to tell whether anything but comments is there. -/
def stripComments (text : List Char) : List Char :=
  let shortened := (Text.linesOf text).map fun line =>
    match Text.cut ['-', '-'] line with
    | some (before, _) => before
    | none => line
  outsideBlocks false (Text.joinWith ['\n'] shortened)

def dropTrivia : Mode → List Char → List Char
  | _, [] => []
  | .lineComment, c :: cs => dropTrivia (if c = '\n' then .plain else .lineComment) cs
  | .blockComment, '*' :: '/' :: cs => dropTrivia .plain cs
  | .blockComment, _ :: cs => dropTrivia .blockComment cs
  | _, '-' :: '-' :: cs => dropTrivia .lineComment cs
  | _, '/' :: '*' :: cs => dropTrivia .blockComment cs
  | mode, c :: cs => if Text.isBlank c then dropTrivia mode cs else c :: cs

/-! ### Statements -/

structure Statement where
  start : Nat
  stop : Nat
  text : List Char
deriving DecidableEq, Repr

def Part.statement? (first : Nat) (p : Part) : Option Statement :=
  if (Text.trim (stripComments p.text)).isEmpty then none
  else
    let body := dropTrivia .plain p.text
    let skipped := Text.newlines (p.text.take (p.text.length - body.length))
    some ⟨first + skipped, first + p.lines, Text.trimEnd body⟩

def statementsFrom (first : Nat) : List Part → List Statement
  | [] => []
  | p :: ps => (p.statement? first).toList ++ statementsFrom (first + p.lines) ps

def split (text : List Char) : List Statement :=
  statementsFrom 1 (parts .plain text)

end AppAtlas.Sql.Script
