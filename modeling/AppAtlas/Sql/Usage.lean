import AppAtlas.Distinct
import AppAtlas.Sql.Token

/-! # What a statement uses

Which tables a SQL statement reads and writes, and which columns it mentions, found in one walk over
its tokens. The walk knows the clause it is in, remembers it across parentheses, and notes table
references where a clause has them: behind `FROM`, `JOIN`, `INTO` and so on. A name in a clause of
expressions is a column. Names of common table expressions, aliases and names given to results are
neither.

At each token `step` says what becomes known and how many of the following tokens belong to it.
-/

namespace AppAtlas.Sql

inductive Access where
  | read
  | write
deriving DecidableEq, Repr

structure TableUse where
  /-- The name without schema, in small letters; a pattern when there are substitutions in it. -/
  name : String
  schema : Option String
  access : Access
  pattern : Bool
  line : Nat
deriving DecidableEq, Repr

structure ColumnUse where
  table : Option String
  name : String
  /-- The tables it may belong to. -/
  candidates : List String
  line : Nat
deriving DecidableEq, Repr

inductive Clause where
  | other
  | select
  | sources
  | condition
  | assignment
  | joinCondition
  | grouping
  | values
deriving DecidableEq, Repr

def Clause.hasColumns : Clause → Bool
  | select | condition | assignment | joinCondition | grouping => true
  | other | sources | values => false

structure NameUse where
  name : String
  line : Nat
deriving DecidableEq, Repr

/-- A column written with a qualifier, which is a table or an alias of one. -/
structure QualifiedUse where
  qualifier : String
  column : NameUse
deriving DecidableEq, Repr

/-- What the walk knows. Lists grow at their end, the aliases at their start. -/
structure Walk where
  clause : Clause := .other
  /-- The clauses around the open parentheses, the innermost first. -/
  outer : List Clause := []
  keyword : String := ""
  deleting : Bool := false
  aliases : List (String × Option String) := []
  tables : List TableUse := []
  qualified : List QualifiedUse := []
  bare : List NameUse := []
  /-- Names given to results in a select list. -/
  results : List String := []
deriving DecidableEq, Repr

/-! ### Parts of a statement

Each function gets the tokens behind the current one and gives, beside what it learns, the number
of tokens it takes. -/

/-- The names of the common table expressions: `name AS (` behind `WITH`, `RECURSIVE` or a comma.
`previous` is the token before the list. -/
def commonTables (previous : Option Token) : List Token → List String
  | t :: ts =>
    let rest := commonTables (some t) ts
    match ts with
    | a :: b :: _ =>
      if t.isPlainName && a.isKeyword ["as"] && b.isPunct '(' &&
          previous.any (fun p => p.isPunct ',' || p.isKeyword ["with", "recursive"])
      then t.lowerText :: rest
      else rest
    | _ => rest
  | [] => []

/-- The parts of a dotted name behind its first one, each of which `accepts` takes. -/
def dottedParts (accepts : Token → Bool) : List Token → List Token
  | dot :: t :: ts => if dot.isPunct '.' && accepts t then t :: dottedParts accepts ts else []
  | _ => []

def readAlias (table : Option String) (ts : List Token) (w : Walk) : Walk × Nat :=
  let lead := if ts.head?.any (·.isKeyword ["as"]) then 1 else 0
  match ts.drop lead with
  | t :: rest =>
    if t.isPlainName && !t.dynamic && !rest.head?.any (·.isPunct '.') then
      ({ w with aliases := (t.lowerText, table) :: w.aliases }, lead + 1)
    else (w, lead)
  | [] => (w, lead)

/-- A table reference, perhaps qualified and perhaps with an alias. A name followed by a
parenthesis is a function when it is read from; when it is written to, its columns follow. -/
def readTable (common : List String) (access : Access) (ts : List Token) (w : Walk) : Walk × Nat :=
  let lead := (ts.takeWhile (·.isKeyword ["only", "lateral", "table"])).length
  match ts.drop lead with
  | [] => (w, lead)
  | first :: rest =>
    if first.keyword?.isSome || !first.isNamePart then (w, lead)
    else
      let more := dottedParts Token.isNamePart rest
      let parts := first :: more
      let after := rest.drop (2 * more.length)
      let taken := lead + 1 + 2 * more.length
      if access == .read && after.head?.any (·.isPunct '(') then (w, taken)
      else
        let last := parts.getLast (by simp [parts])
        let name := last.lowerText
        let schema := (parts.dropLast.getLast?.filter fun p => !p.dynamic).map Token.lowerText
        let isCommon := common.contains name
        let found := last.sort != .dynamic && !isCommon
        let table := if found then some name else none
        let w := if found then
            { w with tables := w.tables ++ [⟨name, schema, access, last.dynamic, first.line⟩] }
          else w
        let w := if found || isCommon then { w with aliases := (name, table) :: w.aliases } else w
        let (w, n) := readAlias table after w
        (w, taken + n)

/-- The names directly inside a parenthesis, with the number of tokens up to its end. -/
def namesInside (depth : Nat) : List Token → List NameUse × Nat
  | [] => ([], 0)
  | t :: ts =>
    if t.isPunct '(' then
      let (names, n) := namesInside (depth + 1) ts
      (names, n + 1)
    else if t.isPunct ')' then
      if depth ≤ 1 then ([], 1)
      else
        let (names, n) := namesInside (depth - 1) ts
        (names, n + 1)
    else
      let (names, n) := namesInside depth ts
      if depth == 1 && t.isName && !t.dynamic then (⟨t.lowerText, t.line⟩ :: names, n + 1)
      else (names, n + 1)

def readInsertColumns (ts : List Token) (w : Walk) : Walk × Nat :=
  let (names, n) := namesInside 0 ts
  match w.tables.getLast?.filter fun t => !t.pattern with
  | some t => ({ w with qualified := w.qualified ++ names.map (⟨t.name, ·⟩) }, n)
  | none => (w, n)

def readName (common : List String) (previous : Option Token) (t : Token) (ts : List Token)
    (w : Walk) : Walk × Nat :=
  if ts.head?.any (·.isPunct '.') then
    let more := dottedParts (fun p => p.isName || p.isPunct '*') ts
    let taken := 2 * more.length
    let isCall := (ts.drop taken).head?.any (·.isPunct '(')
    match more.getLast?, (t :: more).dropLast.getLast? with
    | some column, some qualifier =>
      if w.clause.hasColumns && !isCall && column.isName && !column.dynamic && !qualifier.dynamic then
        let use := ⟨qualifier.lowerText, ⟨column.lowerText, column.line⟩⟩
        ({ w with qualified := w.qualified ++ [use] }, taken)
      else (w, taken)
    | _, _ => (w, taken)
  else if !w.clause.hasColumns || ts.head?.any (·.isPunct '(') then (w, 0)
  else if w.clause == .select && previous.any (fun p =>
      p.isPlainName || p.isPunct ')' || p.sort == .string || p.sort == .number) then
    ({ w with results := t.lowerText :: w.results }, 0)
  else
    let name := t.lowerText
    if (w.aliases.lookup name).isSome || common.contains name then (w, 0)
    else ({ w with bare := w.bare ++ [⟨name, t.line⟩] }, 0)

def readKeyword (common : List String) (keyword : String) (ts : List Token) (w : Walk) :
    Walk × Nat :=
  match keyword with
  | "select" => ({ w with clause := .select }, 0)
  | "from" =>
    readTable common (if w.deleting then .write else .read) ts
      { w with deleting := false, clause := .sources }
  | "join" => readTable common .read ts { w with clause := .sources }
  | "into" =>
    let (w, n) := readTable common .write ts w
    let w := { w with clause := .other }
    let rest := ts.drop n
    if rest.head?.any (·.isPunct '(') then
      let (w, m) := readInsertColumns rest w
      (w, n + m)
    else (w, n)
  | "update" =>
    if w.keyword = "key" ∨ w.keyword = "do" then ({ w with clause := .assignment }, 0)
    else readTable common .write ts w
  | "delete" =>
    if ts.head?.any Token.isPlainName then readTable common .write ts { w with deleting := false }
    else ({ w with deleting := true }, 0)
  | "using" =>
    if ts.head?.any (·.isPunct '(') then (w, 0) else readTable common .read ts w
  | "truncate" =>
    let lead := if ts.head?.any (·.isKeyword ["table"]) then 1 else 0
    let (w, n) := readTable common .write (ts.drop lead) w
    (w, lead + n)
  | "table" =>
    if ["create", "alter", "drop", "temporary", "temp", "global", "local", "external"].contains
        w.keyword then
      let lead := (ts.takeWhile (·.isKeyword ["if", "not", "exists", "only"])).length
      let (w, n) := readTable common .write (ts.drop lead) w
      ({ w with clause := .other }, lead + n)
    else (w, 0)
  | "set" => ({ w with clause := .assignment }, 0)
  | "where" | "having" => ({ w with clause := .condition }, 0)
  | "on" => ({ w with clause := .joinCondition }, 0)
  | "by" =>
    if ["group", "order", "partition"].contains w.keyword then ({ w with clause := .grouping }, 0)
    else (w, 0)
  | "values" => ({ w with clause := .values }, 0)
  | "limit" | "offset" | "union" | "except" | "intersect" | "minus" | "returning" =>
    ({ w with clause := .other }, 0)
  | "as" =>
    match ts with
    | t :: _ =>
      if t.isName then
        (if w.clause == .select then { w with results := t.lowerText :: w.results } else w, 1)
      else (w, 0)
    | [] => (w, 0)
  | _ => (w, 0)

/-- What a token does, with the number of the following tokens that belong to it. -/
def step (common : List String) (previous : Option Token) (t : Token) (ts : List Token)
    (w : Walk) : Walk × Nat :=
  if t.isPunct '(' then ({ w with outer := w.clause :: w.outer }, 0)
  else if t.isPunct ')' then
    let w := { w with clause := w.outer.headD .other, outer := w.outer.tail }
    if w.clause == .sources then readAlias none ts w else (w, 0)
  else if t.isPunct ',' && w.clause == .sources then readTable common .read ts w
  else
    match t.keyword? with
    | some keyword =>
      let (w, n) := readKeyword common keyword ts w
      ({ w with keyword := keyword }, n)
    | none => if t.isName && !t.dynamic then readName common previous t ts w else (w, 0)

/-- The walk over the tokens, of which the first `skip` belong to a step already made. -/
def walk (common : List String) (skip : Nat) (previous : Option Token) (w : Walk) :
    List Token → Walk
  | [] => w
  | t :: ts =>
    match skip with
    | skip + 1 => walk common skip (some t) w ts
    | 0 =>
      let (w, n) := step common previous t ts w
      walk common n (some t) w ts

/-! ### The result -/

def Walk.staticTables (w : Walk) : List String :=
  distinct ((w.tables.filter fun t => !t.pattern).map (·.name))

/-- A qualified column, its qualifier taken for a table unless it is an alias. The columns of
derived tables are left out. -/
def Walk.qualifiedColumn? (w : Walk) (u : QualifiedUse) : Option ColumnUse :=
  let use (table : String) : ColumnUse := ⟨some table, u.column.name, [table], u.column.line⟩
  match w.aliases.lookup u.qualifier with
  | some (some table) => some (use table)
  | some none => none
  | none => some (use u.qualifier)

/-- A column without qualifier; it may belong to any table, unless it is a name the statement
introduced. -/
def Walk.bareColumn? (w : Walk) (u : NameUse) : Option ColumnUse :=
  if w.results.contains u.name || (w.aliases.lookup u.name).isSome then none
  else
    match w.staticTables with
    | [] => none
    | [table] => some ⟨some table, u.name, [table], u.line⟩
    | tables => some ⟨none, u.name, tables, u.line⟩

def Walk.columns (w : Walk) : List ColumnUse :=
  distinctOn (fun c => (c.table, c.name))
    (w.qualified.filterMap w.qualifiedColumn? ++ w.bare.filterMap w.bareColumn?)

structure Usage where
  /-- The word that says what the statement does, in small letters. -/
  operation : Option String
  tables : List TableUse
  columns : List ColumnUse
  fragments : Nat
  problems : List Problem
deriving DecidableEq, Repr

/-- The words that say what a statement does. -/
def operations : List String :=
  ["select", "insert", "update", "delete", "merge", "with", "create", "alter", "drop", "truncate",
    "replace"]

def walkTokens (tokens : List Token) : Walk :=
  walk (commonTables none tokens) 0 none {} tokens

def analyze (text : String) : Usage :=
  let scanned := tokenize text
  let w := walkTokens scanned.tokens
  { operation := (scanned.tokens.filterMap Token.keyword?).find? operations.contains
    tables := distinctOn (fun t => (t.name, t.access)) w.tables
    columns := w.columns
    fragments := scanned.fragments
    problems := scanned.problems }

end AppAtlas.Sql
