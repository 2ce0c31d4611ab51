import AppAtlas.Json.Value
import AppAtlas.Text.Digits

/-! # Reading JSON

The reader follows the grammar of JSON to the letter: no leading zeros, no trailing commas, no
control characters inside strings, no half of a surrogate pair, and nothing but blanks behind the
value.

A number with a fraction or an exponent is read in two steps. Its digits are gathered into a
natural number below `2 ^ 64` (digits beyond that are dropped), and the double nearest to that
number is multiplied or divided by a power of ten. Short decimals come out exactly; a decimal of
seventeen digits may come out next to the nearest double.
-/

namespace AppAtlas.Json

def isGap (c : Char) : Bool :=
  c == ' ' || c == '\t' || c == '\n' || c == '\r'

def skipGap (cs : List Char) : List Char :=
  cs.dropWhile isGap

/-! ### Strings -/

def readUnit : List Char → Option (Nat × List Char)
  | a :: b :: c :: d :: rest => do
    let a ← Text.digitIn? 16 a
    let b ← Text.digitIn? 16 b
    let c ← Text.digitIn? 16 c
    let d ← Text.digitIn? 16 d
    some (((a * 16 + b) * 16 + c) * 16 + d, rest)
  | _ => none

/-- The rest of an escape by code unit. A leading surrogate needs a trailing one behind it. -/
def readCodeEscape (cs : List Char) : Option (Char × List Char) := do
  let (high, rest) ← readUnit cs
  if 0xD800 ≤ high ∧ high ≤ 0xDBFF then
    match rest with
    | '\\' :: 'u' :: rest =>
      let (low, rest) ← readUnit rest
      if 0xDC00 ≤ low ∧ low ≤ 0xDFFF then
        let c ← Text.charOf? (0x10000 + (high - 0xD800) * 0x400 + (low - 0xDC00))
        some (c, rest)
      else none
    | _ => none
  else
    let c ← Text.charOf? high
    some (c, rest)

def readEscape : List Char → Option (Char × List Char)
  | '"' :: rest => some ('"', rest)
  | '\\' :: rest => some ('\\', rest)
  | '/' :: rest => some ('/', rest)
  | 'b' :: rest => some ('\x08', rest)
  | 'f' :: rest => some ('\x0c', rest)
  | 'n' :: rest => some ('\n', rest)
  | 'r' :: rest => some ('\r', rest)
  | 't' :: rest => some ('\t', rest)
  | 'u' :: rest => readCodeEscape rest
  | _ => none

/-- The rest of a string behind its opening quote, `done` being what was read of it, last character
first. -/
def readString : Nat → List Char → List Char → Option (String × List Char)
  | 0, _, _ => none
  | fuel + 1, done, cs =>
    match cs with
    | [] => none
    | '"' :: rest => some (String.ofList done.reverse, rest)
    | '\\' :: rest => do
      let (c, rest) ← readEscape rest
      readString fuel (c :: done) rest
    | c :: rest => if c.toNat < 0x20 then none else readString fuel (c :: done) rest

/-! ### Numbers -/

def wordMax : Nat := Nat.pow 2 64 - 1

/-- Digits added to a number of 64 bits: the number, how many were taken, how many more were dropped
because they no longer fit, and what follows. -/
def gatherDigits (value : Nat) : List Char → Nat × Nat × Nat × List Char
  | [] => (value, 0, 0, [])
  | c :: cs =>
    match Text.digitIn? 10 c with
    | none => (value, 0, 0, c :: cs)
    | some d =>
      if value * 10 + d ≤ wordMax then
        let (v, taken, dropped, rest) := gatherDigits (value * 10 + d) cs
        (v, taken + 1, dropped, rest)
      else
        (value, 0, ((c :: cs).takeWhile Char.isDigit).length, (c :: cs).dropWhile Char.isDigit)

def powerOfTen (n : Nat) : Float :=
  Float.ofScientific 1 false n

/-- `significand · 10 ^ exponent`, or nothing when that is beyond the doubles. -/
def scaleReal : Nat → Float → Int → Option Float
  | 0, f, _ => some f
  | fuel + 1, f, exponent =>
    if exponent.natAbs ≤ 308 then
      if 0 ≤ exponent then
        let r := f * powerOfTen exponent.natAbs
        if r.isInf then none else some r
      else some (f / powerOfTen exponent.natAbs)
    else if f == 0.0 then some f
    else if 0 ≤ exponent then none
    else scaleReal fuel (f / powerOfTen 308) (exponent + 308)

def realOf (negative : Bool) (significand : Nat) (exponent : Int) : Option Number := do
  let f ← scaleReal 20 (Float.ofNat significand) exponent
  some (.real (if negative then -f else f))

/-- An exponent part, when there is one: `e`, a sign, digits. -/
def readExponent (negative : Bool) (significand : Nat) (exponent : Int) :
    List Char → Option (Number × List Char)
  | c :: cs =>
    if c = 'e' ∨ c = 'E' then
      let (minus, cs) := match cs with
        | '+' :: rest => (false, rest)
        | '-' :: rest => (true, rest)
        | _ => (false, cs)
      let digits := cs.takeWhile Char.isDigit
      let rest := cs.dropWhile Char.isDigit
      if digits.isEmpty then none
      else
        let size := Text.decimalValue digits
        if Nat.pow 2 31 - 1 < size then
          if significand ≠ 0 ∧ !minus then none
          else some (.real (if negative then -0.0 else 0.0), rest)
        else
          let total := if minus then exponent - size else exponent + size
          (realOf negative significand total).map (·, rest)
    else (realOf negative significand exponent).map (·, c :: cs)
  | [] => (realOf negative significand exponent).map (·, [])

/-- What follows the whole part of a number: a fraction, an exponent, or neither. -/
def readFraction (negative : Bool) (significand : Nat) (dropped : Nat) :
    List Char → Option (Number × List Char)
  | '.' :: cs =>
    let (v, taken, more, rest) := gatherDigits significand cs
    if taken + more = 0 then none
    else readExponent negative v ((dropped : Int) - taken) rest
  | cs =>
    let isReal := match cs with
      | c :: _ => c == 'e' || c == 'E'
      | [] => false
    if isReal || dropped ≠ 0 then readExponent negative significand dropped cs
    else if !negative then some (.natural significand, cs)
    else if significand = 0 ∨ Nat.pow 2 63 < significand then
      some (.real (-Float.ofNat significand), cs)
    else some (.negative significand, cs)

def readUnsigned (negative : Bool) : List Char → Option (Number × List Char)
  | '0' :: cs =>
    match cs with
    | c :: _ => if c.isDigit then none else readFraction negative 0 0 cs
    | [] => readFraction negative 0 0 []
  | c :: cs =>
    match Text.digitIn? 10 c with
    | none => none
    | some d =>
      let (v, _, dropped, rest) := gatherDigits d cs
      readFraction negative v dropped rest
  | [] => none

def readNumber : List Char → Option (Number × List Char)
  | '-' :: cs => readUnsigned true cs
  | cs => readUnsigned false cs

/-! ### Values -/

mutual

def readValue : Nat → List Char → Option (Value × List Char)
  | 0, _ => none
  | fuel + 1, cs =>
    match skipGap cs with
    | 'n' :: 'u' :: 'l' :: 'l' :: rest => some (.null, rest)
    | 't' :: 'r' :: 'u' :: 'e' :: rest => some (.bool true, rest)
    | 'f' :: 'a' :: 'l' :: 's' :: 'e' :: rest => some (.bool false, rest)
    | '"' :: rest => (readString (rest.length + 1) [] rest).map fun (s, r) => (.string s, r)
    | '[' :: rest =>
      match skipGap rest with
      | ']' :: rest => some (.array [], rest)
      | rest => (readItems fuel rest).map fun (vs, r) => (.array vs, r)
    | '\x7b' :: rest =>
      match skipGap rest with
      | '\x7d' :: rest => some (.object [], rest)
      | rest => (readFields fuel rest).map fun (fs, r) => (.object fs, r)
    | rest => (readNumber rest).map fun (n, r) => (.number n, r)

def readItems : Nat → List Char → Option (List Value × List Char)
  | 0, _ => none
  | fuel + 1, cs => do
    let (v, rest) ← readValue fuel cs
    match skipGap rest with
    | ',' :: rest =>
      let (vs, rest) ← readItems fuel rest
      some (v :: vs, rest)
    | ']' :: rest => some ([v], rest)
    | _ => none

def readFields : Nat → List Char → Option (List (String × Value) × List Char)
  | 0, _ => none
  | fuel + 1, cs =>
    match skipGap cs with
    | '"' :: rest => do
      let (k, rest) ← readString (rest.length + 1) [] rest
      match skipGap rest with
      | ':' :: rest =>
        let (v, rest) ← readValue fuel rest
        match skipGap rest with
        | ',' :: rest =>
          let (fs, rest) ← readFields fuel rest
          some ((k, v) :: fs, rest)
        | '\x7d' :: rest => some ([(k, v)], rest)
        | _ => none
      | _ => none
    | _ => none

end

def parse (text : String) : Option Value := do
  let cs := text.toList
  let (v, rest) ← readValue (2 * cs.length + 2) cs
  if (skipGap rest).isEmpty then some v else none

end AppAtlas.Json
