import AppAtlas.Decimal.Nearest
import AppAtlas.Decimal.Shortest
import AppAtlas.Text.Basic
import AppAtlas.Text.Digits

/-! # Database cells

A cell of a database table holds nothing, an integer, a double or a text. A column has a preference
for one of these, its *affinity*, and what is put into it is turned into that if nothing is lost: a
number into a text, a text that spells a number into the number.
-/

namespace AppAtlas

inductive Cell where
  | null
  | integer (n : Int)
  | real (x : Float)
  | text (s : String)
deriving DecidableEq

inductive Affinity where
  | text
  | integer
  | real
deriving DecidableEq, Repr

namespace Cell

/-! ### Numbers as texts -/

/-- The number of digits that a double shows as a text. -/
def shownDigits : Nat := 15

/-- A positive double rounded to so many significant digits. -/
def rounded (x : Float) : Decimal.Scaled :=
  let b := Decimal.Binary.ofFloat x
  let r := Decimal.Ratio.binary b.mantissa b.exponent
  let top := r.magnitude (((Nat.log2 b.mantissa : Int) + b.exponent) * 30103 / 100000)
  let exponent := top + 1 - shownDigits
  let unit := Decimal.Ratio.decimal 1 exponent
  (⟨(2 * r.num * unit.den + r.den * unit.num) / (2 * r.den * unit.num), exponent⟩ :
    Decimal.Scaled).trimmed

/-- A text of digits with a point in it and at least one digit behind the point. -/
def withPoint (whole fraction : List Char) : List Char :=
  whole ++ '.' :: (if fraction.isEmpty then ['0'] else fraction)

/-- The exponent of a number: sign and at least two digits. -/
def exponentText (e : Int) : List Char :=
  let digits := Nat.toDigits 10 e.natAbs
  'e' :: (if e < 0 then '-' else '+') :: List.replicate (2 - digits.length) '0' ++ digits

/-- A decimal as a text: with an exponent if it is below a ten-thousandth or has more whole digits
than are shown. -/
def decimalText (s : Decimal.Scaled) : List Char :=
  let digits := Nat.toDigits 10 s.digits
  let exponent : Int := digits.length - 1 + s.exponent
  if exponent < -4 ∨ (shownDigits : Int) ≤ exponent then
    withPoint (digits.take 1) (digits.drop 1) ++ exponentText exponent
  else
    let text := s.positional
    if text.contains '.' then text else withPoint text []

def realText (x : Float) : String :=
  if x.isInf then if 0.0 < x then "Inf" else "-Inf"
  else if x == 0.0 then "0.0"
  else
    let digits := decimalText (rounded x.abs)
    String.ofList (if x < 0.0 then '-' :: digits else digits)

/-! ### Texts as numbers -/

def isGap (c : Char) : Bool := c == ' ' || ('\t' ≤ c && c ≤ '\r')

/-- The number that a text spells, whole if it has neither point nor exponent and fits in 64
bits. -/
def number? (text : String) : Option Cell := do
  let cs := Text.trimWhere isGap text.toList
  let (negative, rest) :=
    match cs with
    | '-' :: r => (true, r)
    | '+' :: r => (false, r)
    | r => (false, r)
  let whole := rest.takeWhile Char.isDigit
  let afterWhole := rest.drop whole.length
  let hasPoint := afterWhole.head? == some '.'
  let fraction := if hasPoint then (afterWhole.drop 1).takeWhile Char.isDigit else []
  guard (!(whole ++ fraction).isEmpty)
  let tail := if hasPoint then afterWhole.drop (fraction.length + 1) else afterWhole
  let power ←
    match tail with
    | [] => some 0
    | e :: r => do
      guard (e = 'e' ∨ e = 'E')
      let (down, ds) :=
        match r with
        | '-' :: r => (true, r)
        | '+' :: r => (false, r)
        | r => (false, r)
      guard (!ds.isEmpty ∧ ds.all Char.isDigit)
      some (if down then -(Text.decimalValue ds : Int) else Text.decimalValue ds)
  let value : Int := if negative then -(Text.decimalValue whole : Int) else Text.decimalValue whole
  if !hasPoint ∧ tail.isEmpty ∧ -(Int.pow 2 63) ≤ value ∧ value < Int.pow 2 63 then
    some (.integer value)
  else
    let x := Decimal.nearest (Text.decimalValue (whole ++ fraction)) (power - fraction.length)
    some (.real (if negative then -x else x))

def whole? (x : Float) : Option Int :=
  let n : Int := if x < 0.0 then -(((-x).toUInt64.toNat : Nat) : Int) else x.toUInt64.toNat
  if Float.ofInt n == x ∧ n.natAbs < Nat.pow 2 63 - 1 then some n else none

/-- A cell as a table takes it: a double that is no number, and so on neither side of zero, is
nothing. -/
def taken : Cell → Cell
  | real x => if 0.0 < x ∨ x ≤ 0.0 then real x else null
  | c => c

theorem taken_real_of_pos {x : Float} (h : 0.0 < x) : (real x).taken = real x :=
  if_pos (.inl h)

def store (affinity : Affinity) (cell : Cell) : Cell :=
  let c := cell.taken
  match affinity with
  | .text =>
    match c with
    | integer n => text (toString n)
    | real x => text (realText x)
    | c => c
  | .integer =>
    let numeric :=
      match c with
      | text s => (number? s).getD c
      | c => c
    match numeric with
    | real x => ((whole? x).map integer).getD numeric
    | c => c
  | .real =>
    let numeric :=
      match c with
      | text s => (number? s).getD c
      | c => c
    match numeric with
    | integer n => real (Float.ofInt n)
    | c => c

/-! ### Reading -/

def text? : Cell → Option String
  | text s => some s
  | _ => none

def optionalText? : Cell → Option (Option String)
  | null => some none
  | text s => some (some s)
  | _ => none

/-- The natural number of a cell, below `2 ^ 32`. -/
def line? : Cell → Option Nat
  | integer n => if 0 ≤ n ∧ n < Int.pow 2 32 then some n.toNat else none
  | _ => none

def float? : Cell → Option Float
  | real x => some x
  | integer n => some (Float.ofInt n)
  | _ => none

end Cell

end AppAtlas
