import AppAtlas.Text.Blank
import AppAtlas.Text.Letter
import AppAtlas.Text.Lines
import AppAtlas.Text.Word

/-! # Java tokens

The tokens of a Java file, each with the place it takes in the file and the comments before it. The
sign `>` is always a token of its own, because two of them side by side can close two lists of type
arguments; expressions put them together again where they touch.
-/

namespace AppAtlas.Java

/-- A stretch of a file: offsets of its first character and behind its last, and the lines of the
two. -/
structure Span where
  start : Nat
  stop : Nat
  firstLine : Nat
  lastLine : Nat
deriving DecidableEq, Repr, Inhabited

def Span.to (a b : Span) : Span :=
  ⟨a.start, b.stop, a.firstLine, b.lastLine⟩

inductive TokenSort where
  | word
  | integer
  | number
  | character
  | text
  | mark
  | stop
deriving DecidableEq, Repr, Inhabited

structure Token where
  sort : TokenSort
  text : String
  span : Span
  comments : List Span
deriving DecidableEq, Repr, Inhabited

def reserved : List String :=
  ["abstract", "assert", "boolean", "break", "byte", "case", "catch", "char", "class", "const",
    "continue", "default", "do", "double", "else", "enum", "extends", "final", "finally", "float",
    "for", "goto", "if", "implements", "import", "instanceof", "int", "interface", "long", "native",
    "new", "package", "private", "protected", "public", "return", "short", "static", "strictfp",
    "super", "switch", "synchronized", "this", "throw", "throws", "transient", "try", "void",
    "volatile", "while", "true", "false", "null"]

def primitives : List String :=
  ["boolean", "byte", "char", "short", "int", "long", "float", "double", "void"]

namespace Token

def is (t : Token) (text : String) : Bool :=
  t.text == text && (t.sort == .word || t.sort == .mark)

def isAny (t : Token) (texts : List String) : Bool :=
  texts.any t.is

def isIdentifier (t : Token) : Bool :=
  t.sort == .word && !reserved.contains t.text

def isPrimitive (t : Token) : Bool :=
  t.isAny primitives

def touches (t next : Token) : Bool :=
  t.span.stop == next.span.start

end Token

/-! ### One lexeme -/

/-- What stands at the start of a text, with the number of its characters. -/
inductive Lexeme where
  | gap
  | comment (size : Nat)
  | token (sort : TokenSort) (size : Nat)
  /-- Nothing that can be read. -/
  | broken
deriving DecidableEq, Repr

def startsName (c : Char) : Bool :=
  Text.isLetter c || c == '_' || c == '$'

def continuesName (c : Char) : Bool :=
  Text.isWordChar c || c == '$'

/-- The number of characters of a block comment behind its opening, with its end. -/
def commentRest? : List Char → Option Nat
  | [] => none
  | '*' :: '/' :: _ => some 2
  | _ :: cs => (commentRest? cs).map (· + 1)

/-- The number of characters of a text behind its opening, with its closing `mark`. It stays on one
line, and a character behind a backslash does not close it. -/
def quotedRest? (mark : Char) : List Char → Option Nat
  | [] => none
  | '\\' :: _ :: cs => (quotedRest? mark cs).map (· + 2)
  | c :: cs =>
    if c = mark then some 1
    else if c = '\n' then none
    else (quotedRest? mark cs).map (· + 1)

/-- The number of characters of a text block behind its opening, with its closing quotes. -/
def blockRest? : List Char → Option Nat
  | [] => none
  | '\\' :: _ :: cs => (blockRest? cs).map (· + 2)
  | '"' :: '"' :: '"' :: _ => some 3
  | _ :: cs => (blockRest? cs).map (· + 1)

def isDigitOrLine (c : Char) : Bool :=
  c.isDigit || c == '_'

def exponentSize : List Char → Nat
  | e :: rest =>
    if e == 'e' || e == 'E' || e == 'p' || e == 'P' then
      match rest with
      | s :: more =>
        let digits (cs : List Char) := (cs.takeWhile isDigitOrLine).length
        if s == '+' || s == '-' then
          if digits more = 0 then 0 else 2 + digits more
        else if digits rest = 0 then 0
        else 1 + digits rest
      | [] => 0
    else 0
  | [] => 0

/-- Whether digits are those of an octal number: a zero and octal digits behind it. -/
def isOctal : List Char → Bool
  | '0' :: d :: ds => d != '_' && (d :: ds).all fun c => c == '_' || ('0' ≤ c && c ≤ '7')
  | _ => false

def numberLexeme (cs : List Char) : Lexeme :=
  match cs with
  | '0' :: x :: rest =>
    if x == 'x' || x == 'X' || x == 'b' || x == 'B' then
      let body := rest.takeWhile fun c => c.isAlphanum || c == '_' || c == '.'
      let signed := if body.getLast?.any (fun c => c == 'p' || c == 'P') then
          match rest.drop body.length with
          | s :: more =>
            if s == '+' || s == '-' then 1 + (more.takeWhile Char.isAlphanum).length else 0
          | [] => 0
        else 0
      .token .number (2 + body.length + signed)
    else plain cs
  | _ => plain cs
where
  plain (cs : List Char) : Lexeme :=
    let digits := cs.takeWhile isDigitOrLine
    let afterDigits := cs.drop digits.length
    let fraction :=
      match afterDigits with
      | '.' :: more => 1 + (more.takeWhile isDigitOrLine).length
      | _ => 0
    let power := exponentSize (afterDigits.drop fraction)
    let whole := digits.length + fraction + power
    let ending := (cs.drop whole).head?
    let long := ending.any fun c => c == 'l' || c == 'L'
    let float := ending.any fun c => c == 'f' || c == 'F' || c == 'd' || c == 'D'
    let size := if long || float then whole + 1 else whole
    let isInteger := fraction == 0 && power == 0 && !float && !isOctal digits
    .token (if isInteger then .integer else .number) size

def longMarks : List (List Char) :=
  ["<<=", "...", "->", "::", "++", "--", "&&", "||", "==", "!=", "<=", "+=", "-=", "*=", "/=", "&=",
    "|=", "^=", "%=", "<<"].map String.toList

def marks : List Char :=
  "()\x7b\x7d[];,.@=<>!~?:+-*/&|^%".toList

def lexeme (c : Char) (cs : List Char) : Lexeme :=
  if Text.isBlank c then .gap
  else if ['/', '/'].isPrefixOf (c :: cs) then
    .comment ((c :: cs).takeWhile (· != '\n')).length
  else if ['/', '*'].isPrefixOf (c :: cs) then
    match commentRest? (cs.drop 1) with
    | some n => .comment (2 + n)
    | none => .broken
  else if startsName c then .token .word (1 + (cs.takeWhile continuesName).length)
  else if c.isDigit || (c == '.' && cs.head?.any Char.isDigit) then numberLexeme (c :: cs)
  else if c == '\'' then
    match quotedRest? '\'' cs with
    | some n => .token .character (1 + n)
    | none => .broken
  else if ['"', '"', '"'].isPrefixOf (c :: cs) then
    match blockRest? (cs.drop 2) with
    | some n => .token .text (3 + n)
    | none => .broken
  else if c == '"' then
    match quotedRest? '"' cs with
    | some n => .token .text (1 + n)
    | none => .broken
  else
    match longMarks.find? fun m => m.isPrefixOf (c :: cs) with
    | some m => .token .mark m.length
    | none => if marks.contains c then .token .mark 1 else .broken

/-! ### A whole file -/

/-- The tokens of a file from a place on, ended by a token for the end of the file. The first `skip`
characters belong to a lexeme already read; `comments` are those passed since the last token, the
latest first. -/
def scan (skip offset line : Nat) (comments : List Span) : List Char → Option (List Token)
  | [] => some [⟨.stop, "", ⟨offset, offset, line, line⟩, comments.reverse⟩]
  | c :: cs =>
    match skip with
    | skip + 1 => scan skip offset line comments cs
    | 0 =>
      let spanOf (size : Nat) : Span :=
        ⟨offset, offset + size, line, line + Text.newlines ((c :: cs).take size)⟩
      match lexeme c cs with
      | .gap => scan 0 (offset + 1) (spanOf 1).lastLine comments cs
      | .comment size =>
        let span := spanOf size
        scan (size - 1) span.stop span.lastLine (span :: comments) cs
      | .token sort size =>
        let span := spanOf size
        let token : Token :=
          ⟨sort, String.ofList ((c :: cs).take size), span, comments.reverse⟩
        (scan (size - 1) span.stop span.lastLine [] cs).map (token :: ·)
      | .broken => none

def tokenize (source : List Char) : Option (List Token) :=
  scan 0 0 1 [] source

end AppAtlas.Java
