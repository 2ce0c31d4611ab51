import AppAtlas.Java.Reader

/-! # Java expressions

Expressions are read by precedence, from the weakest operators to the strongest. What is inside an
expression again, be it an expression or a block of statements, is read through `read`, which is
given from outside; so no function here refers to itself except along a list or a count.
-/

namespace AppAtlas.Java

inductive Goal where
  | expression (lambdas : Bool)
  | operand
  /-- What a variable can start with: an expression or a list of such in braces. -/
  | initializer
  | elementValue
  | decoration
  | statement
  | block
  | members (isInterface : Bool)
deriving DecidableEq, Repr

def angleOperator (t : Token) : List Token → String × Nat
  | next :: rest =>
    if t.touches next && next.is ">" then
      let (op, n) := angleOperator next rest
      (">" ++ op, n + 1)
    else if t.touches next && next.is "=" then (">=", 2)
    else (">", 1)
  | [] => (">", 1)

def operatorAhead? : List Token → Option (String × Nat)
  | t :: rest =>
    if t.is ">" then some (angleOperator t rest)
    else if t.sort == .mark || t.is "instanceof" then some (t.text, 1)
    else none
  | [] => none

/-- The operators on two operands, the weakest first. -/
def levels : List (List String) :=
  [["||"], ["&&"], ["|"], ["^"], ["&"], ["==", "!="], ["<", ">", "<=", ">=", "instanceof"],
    ["<<", ">>", ">>>"], ["+", "-"], ["*", "/", "%"]]

def assignments : List String :=
  ["=", "+=", "-=", "*=", "/=", "&=", "|=", "^=", "%=", "<<=", ">>=", ">>>="]

section

variable (read : Goal → Parse Tree)

def arguments : Parse Tree := do
  let first := (← peek).span
  expect "("
  let args ← commaSeparatedUntil ")" (read (.expression true))
  finish first .arguments args

/-- An expression in parentheses. A comment right behind the opening one is its first part. -/
def parenthesized : Parse Tree := do
  let first := (← peek).span
  expect "("
  let lead := (← peek).comments.take 1
  let inner ← read (.expression true)
  expect ")"
  finish first .parenthesized (lead.map (.node .comment · []) ++ [inner])

def lambda : Parse Tree := do
  let first := (← peek).span
  let ts ← ahead
  match afterParens? ts with
  | some rest => takeMany (ts.length - rest.length)
  | none =>
    let _ ← identifier
  expect "->"
  let body ← read (if ← isNext "\x7b" then .block else .expression true)
  finish first .other [body]

def valueList : Parse Tree := do
  let first := (← peek).span
  expect "\x7b"
  let values ← commaSeparatedUntil "\x7d" (read .initializer)
  finish first .other values

def initializer : Parse Tree := do
  if ← isNext "\x7b" then valueList read else read (.expression true)

def creation : Parse Tree := do
  let first := (← peek).span
  expect "new"
  skipAnnotations
  skipAngles
  let _ ← type
  if ← isNext "(" then
    let args ← arguments read
    if ← isNext "\x7b" then
      let body ← read (.members false)
      finish first .other [args, body]
    else finish first .other [args]
  else
    let sizes ← repeatWhile (isNext "[") do
      expect "["
      let size ← if ← isNext "]" then pure [] else do pure [← read (.expression true)]
      expect "]"
      return size
    let values ← if ← isNext "\x7b" then do pure [← valueList read] else pure []
    finish first .other (sizes.flatten ++ values)

def pattern : Parse Unit := do
  let _ ← skip "final"
  skipAnnotations
  let _ ← type
  let ts ← ahead
  match afterParens? ts with
  | some rest => takeMany (ts.length - rest.length)
  | none => pure ()
  if (← peek).isIdentifier && !(← isNext "when") then
    let _ ← take

def isPattern (ts : List Token) : Bool :=
  ts.head?.any (·.is "final") ||
    (typeAhead? (afterAnnotations ts)).any fun t =>
      t.rest.head?.any fun next => (next.isIdentifier && !next.is "when") || next.is "("

def label : Parse (List Tree) := do
  if ← skip "default" then return []
  else if isPattern (← ahead) then
    pattern
    return []
  else return [← read (.expression false)]

def switchPart : Parse Tree := do
  let first := (← peek).span
  let isDefault := (← areNext ["default", ":"]) || (← areNext ["default", "->"])
  if isDefault || (← isNext "case") then
    let _ ← take
    let labels ← if isDefault then pure [] else commaSeparated (label read)
    let guard ← if ← skip "when" then do pure [← read (.expression false)] else pure []
    let parts := labels.flatten ++ guard
    if ← skip "->" then
      if (← isNext "\x7b") || (← isNext "throw") then
        let body ← read .statement
        finish first .other (parts ++ [body])
      else
        let body ← read (.expression true)
        semicolon
        finish first .other (parts ++ [body])
    else
      expect ":"
      finish first .other parts
  else read .statement

def switch : Parse Tree := do
  let first := (← peek).span
  expect "switch"
  let subject ← parenthesized read
  expect "\x7b"
  let cases ← repeatUntil "\x7d" (switchPart read)
  finish first .other (subject :: cases)

/-- What follows behind the dot on something. -/
def selection (first : Span) (tree : Tree) : Parse Tree := do
  expect "."
  skipAngles
  let next ← peek
  if next.is "new" then
    let made ← creation read
    finish first .other [tree, made]
  else if next.is "this" then
    let _ ← take
    finish first (.member "this") [tree]
  else if next.is "super" then
    let _ ← take
    if ← isNext "(" then
      let args ← arguments read
      finish first .other [tree, args]
    else if ← skip "." then
      skipAngles
      named
    else finish first .other [tree]
  else if next.sort == .text then
    let template ← leaf .text
    finish first .other [tree, template]
  else named
where
  named : Parse Tree := do
    let name ← identifier
    if ← isNext "(" then
      let args ← arguments read
      finish first (.call name true) [tree, args]
    else finish first (.member name) [tree]

/-- All that follows on something: selections, indices, counting, method references. -/
def suffixes (first : Span) : Nat → Tree → Parse Tree
  | 0, _ => failure
  | fuel + 1, tree => do
    let t ← peek
    if t.is "." then suffixes first fuel (← selection read first tree)
    else if t.is "[" then
      expect "["
      let index ← read (.expression true)
      expect "]"
      suffixes first fuel (← finish first .other [tree, index])
    else if t.isAny ["++", "--"] then
      let _ ← take
      suffixes first fuel (← finish first .other [tree])
    else if t.is "::" then
      expect "::"
      skipAngles
      let name ← take
      if name.isIdentifier || name.is "new" then suffixes first fuel (← finish first .other [tree])
      else failure
    else return tree

def atom : Parse Tree := do
  let t ← peek
  let first := t.span
  let ts ← ahead
  match classAhead? ts, methodOwnerAhead? ts with
  | some owner, _ =>
    takeMany owner.size
    let name ← textBetween first (← get).last
    takeMany 2
    finish first (.classOf name) []
  | none, some owner =>
    takeMany owner.size
    finish first .other []
  | none, none =>
    match t.sort with
    | .text => leaf .text
    | .integer => leaf .literal
    | .number | .character => leaf .other
    | _ =>
      if t.isAny ["true", "false"] then leaf .literal
      else if t.is "this" then leaf .this
      else if t.isAny ["null", "super"] then leaf .other
      else if t.is "(" then parenthesized read
      else if t.is "new" then creation read
      else if t.is "switch" then switch read
      else if t.isIdentifier then
        let name ← leaf .identifier
        if ← isNext "(" then
          let args ← arguments read
          finish first (.call t.text false) [args]
        else return name
      else failure

def primary : Parse Tree := do
  let first := (← peek).span
  let tree ← atom read
  suffixes read first ((← ahead).length + 1) tree

/-- An operand: something with signs or a cast in front, or without. -/
def operand : Parse Tree := do
  let t ← peek
  let ts ← ahead
  if t.isAny ["+", "-", "!", "~", "++", "--"] then
    let _ ← take
    let inner ← read .operand
    finish t.span .other [inner]
  else if isCast ts then
    match afterParens? ts with
    | some rest => takeMany (ts.length - rest.length)
    | none => failure
    let inner ← if isLambda (← ahead) then lambda read else read .operand
    finish t.span .other [inner]
  else primary read

/-- Operations of one strength, from left to right, `left` being read already. -/
def operations (ops : List String) (next : Parse Tree) (first : Span) : Nat → Tree → Parse Tree
  | 0, _ => failure
  | fuel + 1, left => do
    match operatorAhead? (← ahead) with
    | some (op, size) =>
      if ops.contains op then
        takeMany size
        if op == "instanceof" then
          pattern
          operations ops next first fuel (← finish first .other [left])
        else
          let right ← next
          operations ops next first fuel (← finish first (.binary op) [left, right])
      else return left
    | none => return left

def binary : List (List String) → Parse Tree
  | [] => operand read
  | ops :: stronger => do
    let first := (← peek).span
    let left ← binary stronger
    operations ops (binary stronger) first ((← ahead).length + 1) left

def expression (lambdas : Bool) : Parse Tree := do
  let first := (← peek).span
  if lambdas && isLambda (← ahead) then lambda read
  else
    let condition ← binary read levels
    let tree ← if ← skip "?" then do
        let yes ← read (.expression true)
        expect ":"
        let no ← read (.expression lambdas)
        finish first .other [condition, yes, no]
      else pure condition
    match operatorAhead? (← ahead) with
    | some (op, size) =>
      if assignments.contains op then
        takeMany size
        let value ← read (.expression true)
        finish first .other [tree, value]
      else return tree
    | none => return tree

/-! ### Annotations and modifiers -/

def elementValue : Parse Tree := do
  let first := (← peek).span
  if ← isNext "\x7b" then
    expect "\x7b"
    let values ← commaSeparatedUntil "\x7d" (read .elementValue)
    finish first .elements values
  else if ← isNext "@" then read .decoration
  else read (.expression true)

def element : Parse Tree := do
  let first := (← peek).span
  match ← ahead with
  | key :: eq :: _ =>
    if key.isIdentifier && eq.is "=" then
      takeMany 2
      let value ← elementValue read
      finish first (.pair key.text) [value]
    else elementValue read
  | _ => failure

/-- An annotation. Its name is taken without its package. -/
def decoration : Parse Tree := do
  let first := (← peek).span
  expect "@"
  let start := (← peek).span
  let ts ← ahead
  match afterDotted? ts with
  | some rest => takeMany (ts.length - rest.length)
  | none => failure
  let name ← textBetween start (← get).last
  let args ← if ← skip "(" then commaSeparatedUntil ")" (element read) else pure []
  finish first (.decoration (Text.onString (Text.afterLast '.') name)) args

def modifierWords : List String :=
  ["public", "protected", "private", "abstract", "static", "final", "strictfp", "synchronized",
    "native", "transient", "volatile"]

/-- The number of tokens of the modifier at the start of a list of tokens, zero for an annotation,
which is read apart. -/
def modifierAhead? : List Token → Option Nat
  | t :: next :: rest =>
    if t.is "@" && !next.is "interface" then some 0
    else if t.isAny modifierWords then some 1
    else if t.is "default" && !next.is ":" && !next.is "->" then some 1
    else if t.is "sealed" && next.sort == .word then some 1
    else if t.is "non" && next.is "-" && rest.head?.any (·.is "sealed") then some 3
    else none
  | _ => none

def modifiers : Parse (List Tree) := do
  let first := (← peek).span
  let found ← repeatWhile (do return (modifierAhead? (← ahead)).isSome) do
    match modifierAhead? (← ahead) with
    | some 0 => do pure [← decoration read]
    | some n => do
      takeMany n
      pure []
    | none => failure
  if found.isEmpty then return [] else return [← finish first .modifiers found.flatten]

end

end AppAtlas.Java
