import AppAtlas.Java.Token

/-! # Looking ahead

Java cannot be read one token at a time: whether a parenthesis opens a cast or a lambda, and whether
a name starts a type or an expression, shows only later. The functions here pass over a type, or
over something in brackets, and give the tokens behind it.
-/

namespace AppAtlas.Java

/-- The tokens behind the bracket that closes the `depth` open ones. -/
def closing? (opener closer : String) (depth : Nat) : List Token → Option (List Token)
  | [] => none
  | t :: ts =>
    if t.is opener then closing? opener closer (depth + 1) ts
    else if t.is closer then
      if depth ≤ 1 then some ts else closing? opener closer (depth - 1) ts
    else closing? opener closer depth ts

def afterParens? (ts : List Token) : Option (List Token) :=
  if ts.head?.any (·.is "(") then closing? "(" ")" 0 ts else none

def afterDecoration? : List Token → Option (List Token)
  | at_ :: name :: ts =>
    if at_.is "@" && name.isIdentifier then
      let rest := afterDots ts
      some ((afterParens? rest).getD rest)
    else none
  | _ => none
where
  afterDots : List Token → List Token
    | dot :: name :: ts => if dot.is "." && name.isIdentifier then afterDots ts else dot :: name :: ts
    | ts => ts

def afterAnnotations (ts : List Token) : List Token :=
  go ts.length ts
where
  go : Nat → List Token → List Token
    | 0, ts => ts
    | n + 1, ts =>
      match afterDecoration? ts with
      | some rest => go n rest
      | none => ts

def fitsTypeArguments (t : Token) : Bool :=
  t.isIdentifier || t.isPrimitive ||
    t.isAny [".", ",", "?", "&", "[", "]", "@", "extends", "super"]

/-- The tokens behind the sign that closes the type arguments, `depth` lists of which are open. -/
def closingAngle? (depth : Nat) : List Token → Option (List Token)
  | [] => none
  | t :: ts =>
    if t.is "<" then closingAngle? (depth + 1) ts
    else if t.is ">" then if depth ≤ 1 then some ts else closingAngle? (depth - 1) ts
    else if fitsTypeArguments t then closingAngle? depth ts
    else none

def afterAngles? (ts : List Token) : Option (List Token) :=
  if ts.head?.any (·.is "<") then closingAngle? 0 ts else none

def afterBrackets (ts : List Token) : List Token :=
  go ts.length ts
where
  go : Nat → List Token → List Token
    | 0, ts => ts
    | n + 1, ts =>
      match afterAnnotations ts with
      | o :: c :: rest => if o.is "[" && c.is "]" then go n rest else ts
      | _ => ts

structure TypeAhead where
  /-- The number of tokens up to the end of its last name. -/
  named : Nat
  /-- The number of tokens of the whole type. -/
  size : Nat
  isSimple : Bool
  rest : List Token

/-- The parts of a type behind a name: type arguments, and more names behind dots. Gives what is
left behind the last name and behind the whole. -/
def afterNames : Nat → List Token → List Token × List Token
  | 0, ts => (ts, ts)
  | n + 1, ts =>
    let behind := (afterAngles? ts).getD ts
    match behind with
    | dot :: more =>
      if dot.is "." then
        match afterAnnotations more with
        | name :: rest => if name.isIdentifier then afterNames n rest else (ts, behind)
        | [] => (ts, behind)
      else (ts, behind)
    | [] => (ts, behind)

def typeAhead? (ts : List Token) : Option TypeAhead :=
  match ts with
  | [] => none
  | t :: rest =>
    let found (named behind : List Token) : TypeAhead :=
      let whole := afterBrackets behind
      { named := ts.length - named.length
        size := ts.length - whole.length
        isSimple := t.isIdentifier && whole.length == rest.length
        rest := whole }
    if t.isPrimitive then some (found rest rest)
    else if t.isIdentifier then
      let (named, behind) := afterNames rest.length rest
      some (found named behind)
    else none

def isTypeAndName (ts : List Token) : Bool :=
  (typeAhead? ts).any fun t => t.rest.head?.any Token.isIdentifier

def afterBounds? (ts : List Token) : Option (List Token) :=
  go ts.length ts
where
  go : Nat → List Token → Option (List Token)
    | 0, _ => none
    | n + 1, ts => do
      let t ← typeAhead? (afterAnnotations ts)
      match t.rest with
      | amp :: rest => if amp.is "&" then go n rest else some t.rest
      | [] => some []

/-- Whether a token can start what a type in parentheses is applied to. -/
def startsCastOperand (t : Token) : Bool :=
  t.isIdentifier || t.isAny ["(", "!", "~", "this", "super", "new", "switch", "true", "false", "null"] ||
    t.isPrimitive || t.sort == .text || t.sort == .integer || t.sort == .number ||
    t.sort == .character

/-- Whether a parenthesis at the start of a list of tokens holds the type of a cast. Behind a
primitive type any operand may follow; behind another, a sign would be an operation. -/
def isCast : List Token → Bool
  | o :: ts =>
    o.is "(" &&
      match afterBounds? ts with
      | some (c :: rest) =>
        c.is ")" &&
          ((ts.head?.any Token.isPrimitive && rest.head?.any fun t =>
              startsCastOperand t || t.isAny ["+", "-", "++", "--"]) ||
            rest.head?.any startsCastOperand)
      | _ => false
  | [] => false

def isLambda (ts : List Token) : Bool :=
  match ts with
  | t :: rest =>
    if t.isIdentifier then rest.head?.any (·.is "->")
    else (afterParens? ts).any fun behind => behind.head?.any (·.is "->")
  | [] => false

/-- The names joined by dots at the start of a list of tokens, as what is left behind them. -/
def afterDotted? : List Token → Option (List Token)
  | t :: ts => if t.isIdentifier then some (afterDecoration?.afterDots ts) else none
  | [] => none

/-- The type whose class is asked for at the start of a list of tokens. -/
def classAhead? (ts : List Token) : Option TypeAhead := do
  let t ← typeAhead? ts
  match t.rest with
  | dot :: c :: _ => if dot.is "." && c.is "class" then some t else none
  | _ => none

/-- The type, not a single name, whose method is referred to at the start of a list of tokens. -/
def methodOwnerAhead? (ts : List Token) : Option TypeAhead := do
  let t ← typeAhead? ts
  let last ← (ts.take t.size).getLast?
  if t.rest.head?.any (·.is "::") && (last.is ">" || last.is "]" || last.isPrimitive) then some t
  else none

end AppAtlas.Java
