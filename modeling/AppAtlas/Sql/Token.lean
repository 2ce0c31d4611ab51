import AppAtlas.Text.Blank
import AppAtlas.Text.Letter
import AppAtlas.Text.Lines

/-! # SQL tokens

SQL text is divided into tokens without regard to any dialect. Besides the usual tokens there are
the placeholders of statement templates: bind parameters such as `?`, `:name` and `#{name}`, and
substitutions `${name}`, which stand for any text and can be part of a word.

`lexeme` reads what stands at the start of a text, and `scan` goes from one lexeme to the next.
Reading never fails. At a construct that is not closed it stops and says so, and unbalanced
parentheses are noticed afterwards, on the tokens.
-/

namespace AppAtlas.Sql

inductive TokenSort where
  /-- An identifier or keyword; it may have substitutions inside. -/
  | word
  | quoted
  /-- A text in single quotes. -/
  | string
  | number
  | param
  /-- A name that is nothing but substitutions. -/
  | dynamic
  | punct (mark : Char)
  /-- Any other character, or `::`. -/
  | operator
deriving DecidableEq, Repr

structure Token where
  sort : TokenSort
  /-- The characters of the token, without quotes around them. -/
  text : String
  dynamic : Bool
  /-- The line the token starts on, lines inside placeholders not being counted. It is at most one
more than the number of line ends of the text. -/
  line : Nat
deriving DecidableEq, Repr

/-- Words with a meaning of their own, in small letters. -/
def keywords : List String :=
  ["add", "all", "alter", "and", "any", "as", "asc", "between", "by", "cascade", "case", "cast",
    "check", "collate", "column", "conflict", "constraint", "create", "cross", "default", "delete",
    "desc", "distinct", "do", "drop", "duplicate", "else", "end", "escape", "except", "exists",
    "external", "false", "fetch", "first", "for", "foreign", "from", "full", "fulltext", "global",
    "group", "having", "if", "ignore", "ilike", "in", "index", "inner", "insert", "intersect",
    "interval", "into", "is", "join", "key", "lateral", "left", "like", "limit", "local", "matched",
    "merge", "minus", "modify", "natural", "next", "not", "nothing", "null", "nulls", "offset",
    "on", "only", "or", "order", "outer", "output", "over", "partition", "primary", "recursive",
    "references", "rename", "replace", "returning", "right", "row", "rows", "select", "set",
    "some", "spatial", "table", "temp", "temporary", "then", "to", "top", "true", "truncate",
    "union", "unique", "update", "using", "values", "view", "when", "where", "window", "with"]

namespace Token

def isPunct (t : Token) (mark : Char) : Bool :=
  t.sort == .punct mark

def isName (t : Token) : Bool :=
  t.sort == .word || t.sort == .quoted

/-- Whether a token can be part of a table's name: a name or nothing but substitutions. -/
def isNamePart (t : Token) : Bool :=
  t.isName || t.sort == .dynamic

def lowerText (t : Token) : String :=
  Text.lowerString t.text

def keyword? (t : Token) : Option String :=
  if t.sort = .word ∧ t.dynamic = false ∧ t.lowerText ∈ keywords then some t.lowerText else none

def isKeyword (t : Token) (words : List String) : Bool :=
  t.keyword?.any words.contains

def isPlainName (t : Token) : Bool :=
  t.isName && t.keyword?.isNone

end Token

/-! ### Faults -/

inductive Fault where
  | openComment
  | openString
  | openIdentifier (mark : Char)
  | openPlaceholder
  | openSubstitution
  | unexpectedClose
  | unclosed (count : Nat)
deriving DecidableEq, Repr

def Fault.message : Fault → String
  | openComment => "unterminated block comment"
  | openString => "unterminated string literal"
  | openIdentifier mark => "unterminated quoted identifier `" ++ String.singleton mark ++ "`"
  | openPlaceholder => "unterminated #\x7b placeholder"
  | openSubstitution => "unterminated $\x7b substitution"
  | unexpectedClose => "unbalanced parentheses: unexpected `)`"
  | unclosed count => "unbalanced parentheses: " ++ toString count ++ " unclosed"

structure Problem where
  line : Nat
  fault : Fault
deriving DecidableEq, Repr

/-! ### One lexeme -/

def startsWord (c : Char) : Bool :=
  Text.isLetter c || c == '_' || c == '@'

def continuesWord (c : Char) : Bool :=
  Text.isLetterOrNumber c || c == '_' || c == '$' || c == '@'

inductive Lexeme where
  /-- White space or a comment: the number of its characters, and of the line ends in it. -/
  | gap (size lines : Nat)
  /-- A token: the number of its characters, the number of line ends that count, its sort and text,
  and the number of substitutions inside. -/
  | token (size lines : Nat) (sort : TokenSort) (text : List Char) (fragments : Nat)
  /-- Something that is not closed, with the number of substitutions read before that was clear. -/
  | broken (fault : Fault) (fragments : Nat)
deriving DecidableEq, Repr

/-- The number of characters of a block comment behind its opening, up to and with its end. -/
def commentSize? : List Char → Option Nat
  | [] => none
  | c :: cs =>
    if c = '*' ∧ cs.head? = some '/' then some 2 else (commentSize? cs).map (· + 1)

/-- The number of characters in a string behind its opening quote. A doubled quote and a character
behind a backslash do not end it. -/
def stringSize? : List Char → Option Nat
  | [] => none
  | '\\' :: [] => none
  | '\\' :: _ :: cs => (stringSize? cs).map (· + 2)
  | '\'' :: '\'' :: cs => (stringSize? cs).map (· + 2)
  | '\'' :: _ => some 0
  | _ :: cs => (stringSize? cs).map (· + 1)

def sizeBefore? (mark : Char) : List Char → Option Nat
  | [] => none
  | c :: cs => if c = mark then some 0 else (sizeBefore? mark cs).map (· + 1)

structure WordRead where
  size : Nat := 0
  fragments : Nat := 0
  /-- Whether a character outside substitutions was read. -/
  literal : Bool := false
  broken : Bool := false
deriving DecidableEq, Repr

/-- The word at the start of a text, `inside` saying whether a substitution is open. Behind an
opening there is one open either way: substitutions do not nest. -/
def readWord (inside : Bool) : List Char → WordRead
  | [] => { broken := inside }
  | '$' :: '\x7b' :: cs =>
    let w := readWord true cs
    { w with size := w.size + 2 }
  | c :: cs =>
    if inside then
      if c = '\x7d' then
        let w := readWord false cs
        { w with size := w.size + 1, fragments := w.fragments + 1 }
      else
        let w := readWord true cs
        { w with size := w.size + 1 }
    else if continuesWord c then
      let w := readWord false cs
      { w with size := w.size + 1, literal := true }
    else {}

def wordLexeme (cs : List Char) : Lexeme :=
  let w := readWord false cs
  if w.broken then .broken .openSubstitution w.fragments
  else .token w.size 0 (if w.literal then .word else .dynamic) (cs.take w.size) w.fragments

def stringLexeme (cs : List Char) : Lexeme :=
  match stringSize? cs with
  | some n =>
    let body := cs.take n
    .token (n + 2) (Text.newlines body) .string body 0
  | none => .broken .openString 0

def identifierLexeme (mark : Char) (cs : List Char) : Lexeme :=
  match sizeBefore? (if mark = '[' then ']' else mark) cs with
  | some n =>
    let body := cs.take n
    .token (n + 2) (Text.newlines body) .quoted body 0
  | none => .broken (.openIdentifier mark) 0

def isMark (c : Char) : Bool :=
  "(),.;*".toList.contains c

def singleLexeme (c : Char) : Lexeme :=
  .token 1 0 (if isMark c then .punct c else .operator) [c] 0

def lexeme (c : Char) (cs : List Char) : Lexeme :=
  let next (p : Char → Bool) : Bool := cs.head?.any p
  if c = '\n' then .gap 1 1
  else if Text.isBlank c then .gap 1 0
  else if c == '-' && next (· == '-') then .gap ((c :: cs).takeWhile (· != '\n')).length 0
  else if c == '/' && next (· == '*') then
    match commentSize? (cs.drop 1) with
    | some n => .gap (n + 2) (Text.newlines ((c :: cs).take (n + 2)))
    | none => .broken .openComment 0
  else if c = '\'' then stringLexeme cs
  else if c == '"' || c == '\x60' || c == '[' then identifierLexeme c cs
  else if c == '#' && next (· == '\x7b') then
    match sizeBefore? '\x7d' (cs.drop 1) with
    | some n => .token (n + 3) 0 .param ((c :: cs).take (n + 3)) 0
    | none => .broken .openPlaceholder 0
  else if startsWord c || (c == '$' && next (· == '\x7b')) then wordLexeme (c :: cs)
  else if c = '?' then .token 1 0 .param [c] 0
  else if c == ':' && next (· == ':') then .token 2 0 .operator [':', ':'] 0
  else if c == ':' && next startsWord then
    let body := c :: cs.takeWhile continuesWord
    .token body.length 0 .param body 0
  else if c.isDigit then
    let body := (c :: cs).takeWhile fun d => d.isAlphanum || d == '.'
    .token body.length 0 .number body 0
  else singleLexeme c

/-! ### A whole text -/

structure Tokens where
  tokens : List Token := []
  fragments : Nat := 0
  /-- What is not closed and where, if the text could not be read to its end. -/
  broken : Option Problem := none
deriving DecidableEq, Repr

/-- The tokens of a text from a line on. The first `skip` characters belong to a lexeme that has
been read. -/
def scan (skip line : Nat) : List Char → Tokens
  | [] => {}
  | c :: cs =>
    match skip with
    | skip + 1 => scan skip line cs
    | 0 =>
      match lexeme c cs with
      | .gap size lines => scan (size - 1) (line + lines) cs
      | .token size lines sort text fragments =>
        let rest := scan (size - 1) (line + lines) cs
        { rest with
          tokens := ⟨sort, String.ofList text, fragments != 0, line⟩ :: rest.tokens
          fragments := fragments + rest.fragments }
      | .broken fault fragments => { fragments := fragments, broken := some ⟨line, fault⟩ }

def tokenize (text : String) : Tokens :=
  scan 0 1 text.toList

/-- What is wrong with the parentheses, `depth` of them being open. -/
def parenthesisFault (depth line : Nat) : List Token → Option Problem
  | [] => if depth = 0 then none else some ⟨line, .unclosed depth⟩
  | t :: ts =>
    if t.isPunct '(' then parenthesisFault (depth + 1) t.line ts
    else if t.isPunct ')' then
      match depth with
      | 0 => some ⟨t.line, .unexpectedClose⟩
      | d + 1 => parenthesisFault d t.line ts
    else parenthesisFault depth t.line ts

def Tokens.problems (t : Tokens) : List Problem :=
  t.broken.toList ++ (parenthesisFault 0 1 t.tokens).toList

end AppAtlas.Sql
