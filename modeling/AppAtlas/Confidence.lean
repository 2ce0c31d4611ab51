import AppAtlas.Decimal.Shortest

/-! # Confidences

Every dependency carries a confidence above zero and at most one. Confidences are multiplied along
paths, capped, and compared. The library runs on doubles, where products are rounded; its laws are
about exact numbers. So all that handles confidences is written over a class of number types, which
has the doubles and the rationals as instances.

Literals such as `0.5` stand for the nearest number of the type.
-/

namespace AppAtlas

class Confidence (κ : Type) extends Add κ, Sub κ, Mul κ, Div κ, Neg κ, LT κ, LE κ, OfScientific κ where
  /-- Numbers can be told apart. -/
  decEq : DecidableEq κ
  decLt : DecidableLT κ
  decLe : DecidableLE κ
  ofNat : Nat → κ
  /-- The least confidence a reference may be given. -/
  least : κ
  /-- A number as messages show it. -/
  text : κ → String

namespace Confidence

instance {κ : Type} [Confidence κ] : DecidableEq κ := decEq

instance {κ : Type} [Confidence κ] (a b : κ) : Decidable (a < b) := decLt a b

instance {κ : Type} [Confidence κ] (a b : κ) : Decidable (a ≤ b) := decLe a b

variable {κ : Type} [Confidence κ]

def min (a b : κ) : κ := if b < a then b else a

def max (a b : κ) : κ := if a < b then b else a

def clamp (x low high : κ) : κ :=
  if x < low then low else if high < x then high else x

def size (x : κ) : κ := if x < 0.0 then -x else x

/-- The quotient of two natural numbers. -/
def ratio (n d : Nat) : κ := ofNat n / ofNat d

def isUnit (x : κ) : Bool := 0.0 < x && x ≤ 1.0

end Confidence

instance : Confidence Float where
  decEq := inferInstance
  decLt := inferInstance
  decLe := inferInstance
  ofNat := Float.ofNat
  least := Float.ofScientific 22250738585072014 true 324
  text := Decimal.plain

instance : Confidence Rat where
  decEq := inferInstance
  decLt := inferInstance
  decLe := inferInstance
  ofNat n := (n : Rat)
  least := mkRat 1 (Nat.pow 2 1022)
  text x := toString x.num ++ "/" ++ toString x.den

end AppAtlas
