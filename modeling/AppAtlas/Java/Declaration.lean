import AppAtlas.Java.Expression

/-! # Java declarations and statements

Types with their members, and the statements of method bodies.
-/

namespace AppAtlas.Java

section

variable (read : Goal → Parse Tree)

/-! ### Variables -/

def declarator : Parse Tree := do
  let first := (← peek).span
  let name ← identifier
  skipBrackets
  let value ← if ← skip "=" then do pure [← read .initializer] else pure []
  finish first (.declarator name) value

def localVariables (first : Span) (mods : List Tree) : Parse Tree := do
  let t ← type
  let names ← commaSeparated (declarator read)
  semicolon
  finish first (.locals t.text) (mods ++ names)

/-! ### Members of types -/

/-- A parameter of a method, with its modifiers. What stands for the object itself is none. A
parameter that takes any number of values has a type only if that is a single name. -/
def parameter : Parse (Option Param × List Tree) := do
  let mods ← modifiers read
  let t ← type
  if ← skip "..." then
    skipAnnotations
    let name ← identifier
    skipBrackets
    return (some ⟨if t.isSimple then t.text else "", name⟩, mods)
  else
    let outer ← repeatWhile (do return (← peek).isIdentifier && (← ahead)[1]?.any (·.is ".")) do
      takeMany 2
    if ← skip "this" then return (none, mods)
    else if outer.isEmpty then
      let name ← identifier
      skipBrackets
      return (some ⟨baseTypeName t.text, name⟩, mods)
    else failure

/-- The parameters of a method in parentheses, and the tree that holds their modifiers. -/
def parameters : Parse (List Param × Tree) := do
  let first := (← peek).span
  expect "("
  let found ← commaSeparatedUntil ")" (parameter read)
  return (found.filterMap (·.1), ← finish first .other (found.flatMap (·.2)))

def throwsClause : Parse Unit := do
  if ← skip "throws" then
    let _ ← commaSeparated (do skipAnnotations; type)

/-- The body of a constructor. A call of another constructor at its start is no method call. -/
def constructorBody : Parse Tree := do
  let first := (← peek).span
  expect "\x7b"
  skipAngles
  let lead ← if (← areNext ["this", "("]) || (← areNext ["super", "("]) then do
      let start := (← peek).span
      let _ ← take
      let args ← arguments read
      semicolon
      pure [← finish start .other [args]]
    else pure []
  let statements ← repeatUntil "\x7d" (read .statement)
  finish first .block (lead ++ statements)

def method (isConstructor : Bool) (first : Span) (mods : List Tree) : Parse Tree := do
  let name ← identifier
  let (params, list) ← parameters read
  skipBrackets
  throwsClause
  let default ← if ← skip "default" then do pure [← read .elementValue] else pure []
  let body ← if isConstructor then do pure [← constructorBody read]
    else if ← isNext "\x7b" then do pure [← read .block]
    else do
      semicolon
      pure []
  finish first (.method isConstructor name params) (mods ++ [list] ++ default ++ body)

def memberRest (isInterface : Bool) (first : Span) (mods : List Tree) : Parse Tree := do
  skipAngles
  skipAnnotations
  let ts ← ahead
  if ts.head?.any Token.isIdentifier && ts[1]?.any (·.is "(") then method read true first mods
  else if ts.head?.any Token.isIdentifier && ts[1]?.any (·.is "\x7b") then
    let _ ← take
    let body ← read .block
    finish first .other (mods ++ [body])
  else
    let t ← type
    if (← ahead)[1]?.any (·.is "(") then method read false first mods
    else
      let names ← commaSeparated (declarator read)
      semicolon
      finish first (.field t.text isInterface) (mods ++ names)

def typeNames : Parse (List String) :=
  commaSeparated do
    skipAnnotations
    return (← type).name

def typesBehind (word : String) : Parse (List String) := do
  if ← skip word then typeNames else return []

def enumBody : Parse Tree := do
  let first := (← peek).span
  expect "\x7b"
  let constants ← repeatWhile (do return !(← isNext ";") && !(← isNext "\x7d")) do
    let start := (← peek).span
    let mods ← modifiers read
    let _ ← identifier
    let args ← if ← isNext "(" then do pure [← arguments read] else pure []
    let body ← if ← isNext "\x7b" then do pure [← read (.members false)] else pure []
    if !(← isNext ";") && !(← isNext "\x7d") then expect ","
    finish start .other (mods ++ args ++ body)
  let members ← if ← isNext ";" then do pure [← read (.members false)] else do
    expect "\x7d"
    pure []
  finish first .other (constants ++ members)

/-- Whether a type declaration stands at the start of a list of tokens, behind its modifiers. -/
def isTypeDeclaration : List Token → Bool
  | t :: next :: rest =>
    t.isAny ["class", "interface", "enum"] || (t.is "@" && next.is "interface") ||
      (t.is "record" && next.isIdentifier && rest.head?.any (·.isAny ["(", "<"]))
  | _ => false

def typeDeclaration (first : Span) (mods : List Tree) : Parse Tree := do
  let keyword ← take
  if keyword.is "@" then
    expect "interface"
    let _ ← identifier
    let body ← read (.members true)
    finish first .other (mods ++ [body])
  else
    let name ← identifier
    skipAngles
    if keyword.is "class" then
      let parents ← typesBehind "extends"
      let interfaces ← typesBehind "implements"
      let _ ← typesBehind "permits"
      let body ← read (.members false)
      finish first (.type false name parents interfaces) (mods ++ [body])
    else if keyword.is "interface" then
      let parents ← typesBehind "extends"
      let _ ← typesBehind "permits"
      let body ← read (.members true)
      finish first (.type true name parents []) (mods ++ [body])
    else
      let components ← if keyword.is "record" then do pure [(← parameters read).2] else pure []
      let _ ← typesBehind "implements"
      let body ← if keyword.is "enum" then enumBody read else read (.members false)
      finish first .other (mods ++ components ++ [body])

def typeMember (isInterface : Bool) : Parse Tree := do
  let first := (← peek).span
  if ← isNext ";" then leaf .other
  else
    let mods ← modifiers read
    if isTypeDeclaration (← ahead) then typeDeclaration read first mods
    else if ← isNext "\x7b" then
      let body ← read .block
      finish first .other (mods ++ [body])
    else memberRest read isInterface first mods

/-- The members of a type in braces. Behind the constants of an enumeration a semicolon stands for
the opening brace. -/
def members (isInterface : Bool) : Parse Tree := do
  let first := (← peek).span
  if !(← skip ";") then expect "\x7b"
  let found ← repeatUntil "\x7d" (typeMember read isInterface)
  finish first .block found

/-! ### Statements -/

def block : Parse Tree := do
  let first := (← peek).span
  expect "\x7b"
  let statements ← repeatUntil "\x7d" (read .statement)
  finish first .block statements

def afterLocalModifiers (ts : List Token) : List Token :=
  go ts.length ts
where
  go : Nat → List Token → List Token
    | 0, ts => ts
    | n + 1, ts =>
      match afterAnnotations ts with
      | t :: rest => if t.is "final" then go n rest else t :: rest
      | [] => []

/-- Whether a local variable declaration stands at the start of a list of tokens. -/
def isLocal (ts : List Token) : Bool :=
  isTypeAndName (afterLocalModifiers ts)

/-- Whether a loop over elements stands behind the parenthesis of a `for`. -/
def isLoop (ts : List Token) : Bool :=
  (typeAhead? (afterLocalModifiers ts)).any fun t =>
    t.rest.head?.any Token.isIdentifier && (afterBrackets (t.rest.drop 1)).head?.any (·.is ":")

def forStatement : Parse Tree := do
  let first := (← peek).span
  expect "for"
  expect "("
  if isLoop (← ahead) then
    let mods ← modifiers read
    let t ← type
    let name ← identifier
    skipBrackets
    expect ":"
    let value ← read (.expression true)
    expect ")"
    let body ← read .statement
    finish first (.loop t.text name) (mods ++ [value, body])
  else
    let start := (← peek).span
    let init ← if isLocal (← ahead) then do
        let mods ← modifiers read
        pure [← localVariables read start mods]
      else if ← skip ";" then pure []
      else do
        let first ← commaSeparated (read (.expression true))
        expect ";"
        pure first
    let condition ← if ← isNext ";" then pure [] else do pure [← read (.expression true)]
    expect ";"
    let update ← commaSeparatedUntil ")" (read (.expression true))
    let body ← read .statement
    finish first .other (init ++ condition ++ update ++ [body])

def resource : Parse Tree := do
  let first := (← peek).span
  let found ← if isLocal (← ahead) then do
      let mods ← modifiers read
      let _ ← type
      let _ ← identifier
      skipBrackets
      expect "="
      let value ← read (.expression true)
      pure (mods ++ [value])
    else do pure [← read (.expression true)]
  if !(← isNext ")") then expect ";"
  finish first .other found

def catchClause : Parse Tree := do
  let first := (← peek).span
  expect "catch"
  expect "("
  let mods ← modifiers read
  let _ ← type
  let _ ← repeatWhile (isNext "|") (do expect "|"; type)
  let _ ← identifier
  skipBrackets
  expect ")"
  let body ← read .block
  finish first .other (mods ++ [body])

def tryStatement : Parse Tree := do
  let first := (← peek).span
  expect "try"
  let resources ← if ← skip "(" then repeatUntil ")" (resource read) else pure []
  let body ← read .block
  let handlers ← repeatWhile (isNext "catch") (catchClause read)
  let last ← if ← skip "finally" then do pure [← read .block] else pure []
  finish first .other (resources ++ [body] ++ handlers ++ last)

/-- Whether a word at the start of a list of tokens gives the value of a `switch`. -/
def isYield : List Token → Bool
  | t :: next :: _ =>
    t.is "yield" && !next.isAny ["=", ".", "[", "++", "--", "->", "::", ":", "+=", "-=", ")", ";"]
  | _ => false

def statement : Parse Tree := do
  let t ← peek
  let first := t.span
  let ts ← ahead
  let next (text : String) : Bool := ts[1]?.any (·.is text)
  if t.is "\x7b" then block read
  else if t.is ";" then leaf .other
  else if t.is "if" then
    expect "if"
    let condition ← parenthesized read
    let yes ← read .statement
    let no ← if ← skip "else" then do pure [← read .statement] else pure []
    finish first .other ([condition, yes] ++ no)
  else if t.is "while" then
    expect "while"
    let condition ← parenthesized read
    let body ← read .statement
    finish first .other [condition, body]
  else if t.is "do" then
    expect "do"
    let body ← read .statement
    expect "while"
    let condition ← parenthesized read
    semicolon
    finish first .other [body, condition]
  else if t.is "for" then forStatement read
  else if t.is "try" then tryStatement read
  else if t.is "synchronized" && next "(" then
    expect "synchronized"
    let lock ← parenthesized read
    let body ← read .block
    finish first .other [lock, body]
  else if t.isAny ["break", "continue"] then
    let _ ← take
    if (← peek).isIdentifier then
      let _ ← take
    semicolon
    finish first .other []
  else if t.is "return" then
    expect "return"
    let atEnd := (← isNext ";") || (← isNext "\x7d")
    let value ← if atEnd then pure [] else do pure [← read (.expression true)]
    semicolon
    finish first .other value
  else if t.is "throw" || isYield ts then
    let _ ← take
    let value ← read (.expression true)
    semicolon
    finish first .other [value]
  else if t.is "assert" then
    expect "assert"
    let condition ← read (.expression true)
    let message ← if ← skip ":" then do pure [← read (.expression true)] else pure []
    semicolon
    finish first .other (condition :: message)
  else if t.is "switch" then switch read
  else if t.isIdentifier && next ":" then
    takeMany 2
    let body ← read .statement
    finish first .other [body]
  else if isTypeDeclaration ts then typeDeclaration read first []
  else if isLocal ts then
    let mods ← modifiers read
    localVariables read first mods
  else if (modifierAhead? ts).isSome then
    let mods ← modifiers read
    if isTypeDeclaration (← ahead) then typeDeclaration read first mods
    else localVariables read first mods
  else
    let value ← read (.expression true)
    semicolon
    finish first .other [value]

/-! ### Files -/

def packageDeclaration (first : Span) : Parse Tree := do
  expect "package"
  let start := (← peek).span
  let ts ← ahead
  match afterDotted? ts with
  | some rest => takeMany (ts.length - rest.length)
  | none => failure
  let name ← textBetween start (← get).last
  semicolon
  finish first (.package name) []

/-- An import. It counts as one of members if its text has the word `static` and a space. -/
def importDeclaration : Parse Tree := do
  let first := (← peek).span
  expect "import"
  let _ ← skip "static"
  let start := (← peek).span
  let ts ← ahead
  match afterDotted? ts with
  | some rest => takeMany (ts.length - rest.length)
  | none => failure
  let name ← textBetween start (← get).last
  let all ← if ← areNext [".", "*"] then do
      takeMany 2
      pure true
    else pure false
  semicolon
  let whole ← textBetween first (← get).last
  finish first (.importing name all (Text.holds "static ".toList whole.toList)) []

def afterModifiers (ts : List Token) : List Token :=
  go ts.length ts
where
  go : Nat → List Token → List Token
    | 0, ts => ts
    | n + 1, ts =>
      match modifierAhead? ts with
      | some 0 => match afterDecoration? ts with
        | some rest => go n rest
        | none => ts
      | some k => go n (ts.drop k)
      | none => ts

def isMethod (ts : List Token) : Bool :=
  let ts := afterModifiers ts
  let ts := afterAnnotations ((afterAngles? ts).getD ts)
  (typeAhead? ts).any fun t =>
    t.rest.head?.any Token.isIdentifier && t.rest[1]?.any (·.is "(")

def topLevel : Parse Tree := do
  let t ← peek
  let ts ← ahead
  if t.is "\x7d" then
    blame t.span.firstLine
    leaf .other
  else if t.is "import" then importDeclaration
  else if (afterAnnotations ts).head?.any (·.is "package") then
    skipAnnotations
    packageDeclaration t.span
  else if isMethod ts then typeMember read false
  else statement read

def file : Parse Tree := do
  let first := (← peek).span
  let parts ← repeatWhile (do return (← peek).sort != .stop) (topLevel read)
  finish first .file parts

def nested : Goal → Parse Tree
  | .expression lambdas => expression read lambdas
  | .operand => operand read
  | .initializer => initializer read
  | .elementValue => elementValue read
  | .decoration => decoration read
  | .statement => statement read
  | .block => block read
  | .members isInterface => members read isInterface

end

/-- A goal, nested at most `depth` levels deep. -/
def readGoal : Nat → Goal → Parse Tree
  | 0, _ => failure
  | depth + 1, goal => nested (readGoal depth) goal

/-- The tree of a file and the lines of its faults in order; no tree if it could not be read. -/
def parse (source : List Char) : Option Tree × List Nat :=
  match tokenize source with
  | none => (none, [1])
  | some tokens =>
    let start : Reader := ⟨source, tokens, ⟨0, 0, 1, 1⟩, []⟩
    match (file (readGoal (4 * tokens.length + 8))).run start with
    | some (tree, s) => (some tree, s.faults.reverse)
    | none => (none, [1])

end AppAtlas.Java
