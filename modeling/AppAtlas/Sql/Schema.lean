import AppAtlas.Sql.Token

/-! # Declared tables

The tables that a script declares by `CREATE TABLE`, with their columns. Inside the parentheses of a
declaration the elements are separated by commas. An element that starts with a word such as
`CONSTRAINT` or `KEY` declares no column; `PRIMARY KEY (...)` says which columns are the key.
-/

namespace AppAtlas.Sql

/-- The part a column plays in the keys of its table. -/
inductive KeyRole where
  | primary
  | unique
deriving DecidableEq, Repr

def KeyRole.name : KeyRole → String
  | primary => "PRI"
  | unique => "UNI"

structure DeclaredColumn where
  name : String
  dataType : Option String
  nullable : Bool
  key : Option KeyRole
deriving DecidableEq, Repr

structure DeclaredTable where
  schema : Option String
  name : String
  line : Nat
  columns : List DeclaredColumn
deriving DecidableEq, Repr

/-! ### Elements of a declaration -/

def addToken (t : Token) : List (List Token) → List (List Token)
  | [] => [[t]]
  | e :: es => (t :: e) :: es

/-- The elements of a declaration, between the commas directly inside its parentheses, with the
number of tokens up to its end. The outer parentheses and those commas are left out. -/
def elements (depth : Nat) : List Token → List (List Token) × Nat
  | [] => ([[]], 0)
  | t :: ts =>
    if t.isPunct '(' then
      let (es, n) := elements (depth + 1) ts
      (if depth = 0 then es else addToken t es, n + 1)
    else if t.isPunct ')' then
      if depth ≤ 1 then ([[]], 1)
      else
        let (es, n) := elements (depth - 1) ts
        (addToken t es, n + 1)
    else if t.isPunct ',' && depth == 1 then
      let (es, n) := elements depth ts
      ([] :: es, n + 1)
    else
      let (es, n) := elements depth ts
      (addToken t es, n + 1)

def adjacent (a b : String) : List String → Bool
  | x :: y :: rest => (x == a && y == b) || adjacent a b (y :: rest)
  | _ => false

/-- The data type written behind a column's name, with its arguments. -/
def dataType? : List Token → Option String
  | [] => none
  | t :: ts =>
    match ts with
    | p :: args =>
      if p.isPunct '(' then
        let inside := (args.takeWhile fun a => !a.isPunct ')').map (·.text)
        some (t.text ++ "(" ++ String.join inside ++ ")")
      else some t.text
    | [] => some t.text

def primaryNames : List Token → List String
  | head :: rest =>
    if head.isKeyword ["primary"] then
      ((rest.drop 1).filter Token.isPlainName).map Token.lowerText
    else []
  | [] => []

def declaredColumn? : List Token → Option DeclaredColumn
  | head :: rest =>
    if head.isKeyword ["primary", "constraint", "unique", "key", "index", "foreign", "check",
        "fulltext", "spatial"] then none
    else if !head.isName then none
    else
      let words := (head :: rest).filterMap Token.keyword?
      let key :=
        if adjacent "primary" "key" words then some .primary
        else if words.contains "unique" then some .unique
        else none
      some
        { name := head.lowerText
          dataType := dataType? rest
          nullable := !adjacent "not" "null" words && key != some .primary
          key := key }
  | [] => none

def DeclaredColumn.withKey (primary : List String) (c : DeclaredColumn) : DeclaredColumn :=
  if primary.contains c.name then { c with key := some .primary, nullable := false } else c

def declaredColumns (es : List (List Token)) : List DeclaredColumn :=
  (es.filterMap declaredColumn?).map (·.withKey (es.flatMap primaryNames))

/-! ### Declarations -/

def dottedName : List Token → List String × Nat
  | [] => ([], 0)
  | [t] => if t.isName then ([t.lowerText], 1) else ([], 0)
  | t :: dot :: ts =>
    if !t.isName then ([], 0)
    else if dot.isPunct '.' then
      let (names, n) := dottedName ts
      (t.lowerText :: names, n + 2)
    else ([t.lowerText], 1)

/-- The table declared behind a `CREATE`, with the number of tokens taken. -/
def readDeclaration (line : Nat) (ts : List Token) : Option DeclaredTable × Nat :=
  let lead := (ts.takeWhile (·.isKeyword
    ["temporary", "temp", "global", "local", "external", "or", "replace"])).length
  let rest := ts.drop lead
  if !rest.head?.any (·.isKeyword ["table"]) then (none, lead)
  else
    let lead := lead + 1
    let rest := rest.drop 1
    let exist := (rest.takeWhile (·.isKeyword ["if", "not", "exists"])).length
    let lead := lead + exist
    let rest := rest.drop exist
    let (names, n) := dottedName rest
    let lead := lead + n
    let rest := rest.drop n
    match names.getLast? with
    | none => (none, lead)
    | some name =>
      let (es, m) := if rest.head?.any (·.isPunct '(') then elements 0 rest else ([], 0)
      (some ⟨names.dropLast.getLast?, name, line, declaredColumns es⟩, lead + m)

/-- The tables declared among some tokens, of which the first `skip` belong to a declaration already
read. -/
def declarations (skip : Nat) : List Token → List DeclaredTable
  | [] => []
  | t :: ts =>
    match skip with
    | skip + 1 => declarations skip ts
    | 0 =>
      if t.isKeyword ["create"] then
        let (table, n) := readDeclaration t.line ts
        table.toList ++ declarations n ts
      else declarations 0 ts

def declaredTables (text : String) : List DeclaredTable × List Problem :=
  let scanned := tokenize text
  (declarations 0 scanned.tokens, scanned.problems)

end AppAtlas.Sql
