import AppAtlas.Text.Quoted

/-! # Path patterns

A pattern for paths: `?` is any character, `*` any text, `**` any number of whole path components,
and brackets list the characters that may or, after an exclamation mark, may not stand at a place.
-/

namespace AppAtlas

namespace Glob

inductive Choice where
  | single (c : Char)
  | range (low high : Char)
deriving DecidableEq, Repr

def Choice.has : Choice → Char → Bool
  | single x, c => c == x
  | range low high, c => low ≤ c && c ≤ high

inductive Token where
  | char (c : Char)
  | anyChar
  | anyText
  | anyComponents
  | oneOf (choices : List Choice)
  | noneOf (choices : List Choice)
deriving DecidableEq, Repr

inductive Cause where
  | tooManyStars
  | recursiveInComponent
  | badRange
deriving DecidableEq, Repr

def Cause.message : Cause → String
  | tooManyStars => "wildcards are either regular `*` or recursive `**`"
  | recursiveInComponent => "recursive wildcards must form a single path component"
  | badRange => "invalid range pattern"

/-- Why a text is not a pattern, and at which character. -/
structure Error where
  position : Nat
  cause : Cause
deriving DecidableEq, Repr

def Error.message (e : Error) : String :=
  "Pattern syntax error near position " ++ toString e.position ++ ": " ++ e.cause.message

/-! ### Reading -/

def choices : List Char → List Choice
  | a :: '-' :: b :: rest => .range a b :: choices rest
  | a :: rest => .single a :: choices rest
  | [] => []

/-- What is behind an opening bracket: the token, and its number of characters with both brackets.
The first character listed may be a closing bracket. -/
def bracket? : List Char → Option (Token × Nat)
  | '!' :: first :: rest =>
    if rest.contains ']' then
      let inside := first :: rest.takeWhile (· != ']')
      some (.noneOf (choices inside), inside.length + 3)
    else none
  | '!' :: [] => none
  | first :: rest =>
    if rest.contains ']' then
      let inside := first :: rest.takeWhile (· != ']')
      some (.oneOf (choices inside), inside.length + 2)
    else none
  | [] => none

def addComponents (tokens : List Token) : List Token :=
  if 1 < tokens.length && tokens.getLast? == some .anyComponents then tokens
  else tokens ++ [.anyComponents]

/-- The tokens of a pattern. `skip` characters are passed over, `position` is that of the next one,
and `previous` the one before it. -/
def tokensFrom (skip position : Nat) (previous : Option Char) (tokens : List Token) :
    List Char → Except Error (List Token)
  | [] => .ok tokens
  | c :: rest =>
    let step := fun skip tokens => tokensFrom skip (position + 1) (some c) tokens rest
    if skip ≠ 0 then step (skip - 1) tokens
    else
      match c with
      | '?' => step 0 (tokens ++ [.anyChar])
      | '[' =>
        match bracket? rest with
        | some (token, size) => step (size - 1) (tokens ++ [token])
        | none => .error ⟨position, .badRange⟩
      | '*' =>
        let stars := (rest.takeWhile (· == '*')).length + 1
        if 2 < stars then .error ⟨position + 2, .tooManyStars⟩
        else if stars = 1 then step 0 (tokens ++ [.anyText])
        else if previous ≠ none ∧ previous ≠ some '/' then
          .error ⟨position - 1, .recursiveInComponent⟩
        else
          match rest.drop 1 with
          | [] => step 1 (addComponents tokens)
          | '/' :: _ => step 2 (addComponents tokens)
          | _ => .error ⟨position + 2, .recursiveInComponent⟩
      | c => step 0 (tokens ++ [.char c])

end Glob

structure Glob where
  tokens : List Glob.Token
deriving DecidableEq, Repr

namespace Glob

def parse (text : String) : Except Error Glob :=
  (tokensFrom 0 0 none [] text.toList).map Glob.mk

/-! ### Matching -/

/-- How an attempt to match ends: the text fits, no text with the same beginning can, or this
attempt does not. -/
inductive Verdict where
  | fits
  | never
  | not
deriving DecidableEq, Repr

def Token.takes : Token → Char → Bool
  | char x, c => c == x
  | anyChar, _ => true
  | oneOf choices, c => choices.any (·.has c)
  | noneOf choices, c => !choices.any (·.has c)
  | anyText, _ => false
  | anyComponents, _ => false

/-- The ends of a text, the whole text first and nothing last. -/
def suffixes : List Char → List (List Char)
  | [] => [[]]
  | c :: cs => (c :: cs) :: suffixes cs

/-- The ends of a text that start with a path component. -/
def components (cs : List Char) : List (List Char) :=
  cs :: afterSlash cs
where
  afterSlash : List Char → List (List Char)
    | [] => []
    | c :: cs => if c = '/' then cs :: afterSlash cs else afterSlash cs

def firstDecided (attempt : List Char → Verdict) (resort : Verdict) : List (List Char) → Verdict
  | [] => resort
  | cs :: rest =>
    match attempt cs with
    | .not => firstDecided attempt resort rest
    | v => v

def matchTokens : List Token → List Char → Verdict
  | [], cs => if cs.isEmpty then .fits else .not
  | .anyText :: tokens, cs => firstDecided (matchTokens tokens) .not (suffixes cs)
  | .anyComponents :: tokens, cs =>
    firstDecided (matchTokens tokens) (matchTokens tokens []) (components cs)
  | _ :: _, [] => .never
  | t :: tokens, c :: cs => if t.takes c then matchTokens tokens cs else .not

def accepts (g : Glob) (path : String) : Bool := matchTokens g.tokens path.toList == .fits

end Glob

end AppAtlas
