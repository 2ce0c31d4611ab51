import AppAtlas.Java.Lookahead
import AppAtlas.Java.Tree

/-! # Reading tokens

The state of a reader of Java: the tokens that are left, and the lines on which something was wrong.
A reader forgives two faults, for the rest of the file can still be understood: a semicolon that is
missing, and a closing brace too many. At any other fault it fails.
-/

namespace AppAtlas.Java

structure Reader where
  source : List Char
  /-- The tokens that are left, the last of which is the end of the file. -/
  rest : List Token
  /-- The stretch of the last token taken. -/
  last : Span
  /-- The lines of the faults met, the latest first. -/
  faults : List Nat

abbrev Parse := StateT Reader Option

def ahead : Parse (List Token) := do
  return (← get).rest

def peek : Parse Token := do
  match (← get).rest with
  | t :: _ => return t
  | [] => failure

def take : Parse Token := do
  let s ← get
  match s.rest with
  | t :: ts =>
    if t.sort == .stop then failure
    set { s with rest := ts, last := t.span }
    return t
  | [] => failure

def takeMany : Nat → Parse Unit
  | 0 => return ()
  | n + 1 => do
    let _ ← take
    takeMany n

def isNext (text : String) : Parse Bool := do
  return (← peek).is text

def areNext (texts : List String) : Parse Bool := do
  let ts ← ahead
  return (texts.zip ts).all (fun (text, t) => t.is text) && texts.length ≤ ts.length

def expect (text : String) : Parse Unit := do
  if ← isNext text then
    let _ ← take
  else failure

def skip (text : String) : Parse Bool := do
  if ← isNext text then
    let _ ← take
    return true
  else return false

def identifier : Parse String := do
  let t ← take
  if t.isIdentifier then return t.text else failure

def blame (line : Nat) : Parse Unit :=
  modify fun s => { s with faults := line :: s.faults }

/-- Takes a semicolon. A missing one is noted on the line where what stands before it ends, a
comment included. -/
def semicolon : Parse Unit := do
  let t ← peek
  if t.is ";" then
    let _ ← take
  else
    let s ← get
    blame ((t.comments.getLast?.getD s.last).lastLine)

def finish (first : Span) (form : Form) (parts : List Tree) : Parse Tree := do
  return .node form (first.to (← get).last) parts

def leaf (form : Form) : Parse Tree := do
  let t ← take
  return .node form t.span []

def textBetween (a b : Span) : Parse String := do
  return String.ofList (Tree.textOf (← get).source (a.to b))

/-- Repeats a reader while a condition holds, `fuel` times at most. -/
def manyWhile {α : Type} (condition : Parse Bool) (p : Parse α) : Nat → Parse (List α)
  | 0 => failure
  | fuel + 1 => do
    if ← condition then
      let a ← p
      return a :: (← manyWhile condition p fuel)
    else return []

/-- Repeats a reader while a condition holds. Each round takes a token at least. -/
def repeatWhile {α : Type} (condition : Parse Bool) (p : Parse α) : Parse (List α) := do
  manyWhile condition p ((← ahead).length + 1)

/-- Repeats a reader up to a certain mark, which is taken too. -/
def repeatUntil {α : Type} (closer : String) (p : Parse α) : Parse (List α) := do
  let found ← repeatWhile (do return !(← isNext closer)) p
  expect closer
  return found

def commaSeparated {α : Type} (p : Parse α) : Parse (List α) := do
  let first ← p
  let more ← repeatWhile (isNext ",") (do expect ","; p)
  return first :: more

/-- Any number, with commas between, up to a certain mark, which is taken too. A comma may stand
before that mark. -/
def commaSeparatedUntil {α : Type} (closer : String) (p : Parse α) : Parse (List α) :=
  repeatUntil closer do
    let a ← p
    if !(← isNext closer) then expect ","
    return a

/-- Takes type arguments or type parameters, if they are next. -/
def skipAngles : Parse Unit := do
  let ts ← ahead
  match afterAngles? ts with
  | some rest => takeMany (ts.length - rest.length)
  | none => return ()

def skipAnnotations : Parse Unit := do
  let ts ← ahead
  takeMany (ts.length - (afterAnnotations ts).length)

def skipBrackets : Parse Unit := do
  let ts ← ahead
  takeMany (ts.length - (afterBrackets ts).length)

structure TypeRead where
  text : String
  /-- The type as written, without the type arguments of its last name. -/
  name : String
  isSimple : Bool

def type : Parse TypeRead := do
  let ts ← ahead
  match ts, typeAhead? ts with
  | first :: _, some found =>
    match ts.drop (found.named - 1) with
    | lastName :: _ =>
      takeMany found.size
      let text ← textBetween first.span (← get).last
      let name ← textBetween first.span lastName.span
      return ⟨text, name, found.isSimple⟩
    | [] => failure
  | _, _ => failure

end AppAtlas.Java
