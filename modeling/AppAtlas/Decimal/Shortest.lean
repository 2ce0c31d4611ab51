/-! # The shortest decimal of a number

A positive finite double is `m · 2 ^ q`. Every real nearer to it than to its neighbours reads back
as it, and so do the two ends of that interval when `m` is even. Its shortest decimal is the one
with the fewest digits inside the interval, and of two such the nearer one.

The search runs over grids of one, two, … seventeen digits. On each grid only the two points around
the number can be inside the interval and nearest, so they alone are tried. All arithmetic is exact,
on natural numbers.
-/

namespace AppAtlas.Decimal

structure Scaled where
  digits : Nat
  exponent : Int
deriving DecidableEq, Repr

/-- A positive binary number `mantissa · 2 ^ exponent`, with whether the gap below it is half the
gap above it. -/
structure Binary where
  mantissa : Nat
  exponent : Int
  narrowBelow : Bool

/-- The parts of a positive finite double. -/
def Binary.ofFloat (x : Float) : Binary :=
  let bits := x.toBits.toNat
  let fraction := bits % Nat.pow 2 52
  let power : Nat := bits / Nat.pow 2 52 % Nat.pow 2 11
  if power = 0 then ⟨fraction, -1074, false⟩
  else ⟨fraction + Nat.pow 2 52, (power : Int) - 1075, fraction == 0 && power != 1⟩

/-- A fraction of two natural numbers, the second positive. -/
structure Ratio where
  num : Nat
  den : Nat

def Ratio.below (a b : Ratio) : Bool :=
  a.num * b.den < b.num * a.den

def Ratio.atMost (a b : Ratio) : Bool :=
  a.num * b.den ≤ b.num * a.den

def Ratio.binary (n : Nat) (q : Int) : Ratio :=
  if 0 ≤ q then ⟨n * Nat.pow 2 q.toNat, 1⟩ else ⟨n, Nat.pow 2 (-q).toNat⟩

def Ratio.decimal (n : Nat) (e : Int) : Ratio :=
  if 0 ≤ e then ⟨n * Nat.pow 10 e.toNat, 1⟩ else ⟨n, Nat.pow 10 (-e).toNat⟩

def Ratio.magnitude (r : Ratio) (guess : Int) : Int :=
  go 8 guess
where
  go : Nat → Int → Int
    | 0, k => k
    | n + 1, k =>
      if r.below (.decimal 1 k) then go n (k - 1)
      else if (Ratio.decimal 1 (k + 1)).atMost r then go n (k + 1)
      else k

/-- The reals that read back as one number. -/
structure Interval where
  low : Ratio
  high : Ratio
  closed : Bool

/-- Whether a fraction reads back as the number of the interval. -/
def Interval.has (i : Interval) (r : Ratio) : Bool :=
  if i.closed then i.low.atMost r && r.atMost i.high else i.low.below r && r.below i.high

def Binary.interval (b : Binary) : Interval where
  low :=
    if b.narrowBelow then .binary (4 * b.mantissa - 1) (b.exponent - 2)
    else .binary (2 * b.mantissa - 1) (b.exponent - 1)
  high := .binary (2 * b.mantissa + 1) (b.exponent - 1)
  closed := b.mantissa % 2 = 0

/-- The points of the grid `10 ^ e` around a fraction that read back, the nearer one first chosen;
a tie goes up. -/
def gridPoint (r : Ratio) (i : Interval) (e : Int) : Option Nat :=
  let unit : Ratio := .decimal 1 e
  let floor := (r.num * unit.den) / (r.den * unit.num)
  let lowIn := 0 < floor && i.has (.decimal floor e)
  let highIn := i.has (.decimal (floor + 1) e)
  let middle : Ratio := .decimal (10 * floor + 5) (e - 1)
  if lowIn && highIn then some (if r.below middle then floor else floor + 1)
  else if lowIn then some floor
  else if highIn then some (floor + 1)
  else none

/-- The shortest decimal of a positive finite double. -/
def shortest (x : Float) : Scaled :=
  let b := Binary.ofFloat x
  let r := Ratio.binary b.mantissa b.exponent
  let i := b.interval
  let guess := ((Nat.log2 b.mantissa : Int) + b.exponent) * 30103 / 100000
  let top := r.magnitude guess
  let rec search : Nat → Nat → Scaled
    | 0, _ => ⟨b.mantissa, 0⟩
    | n + 1, count =>
      let e := top + 1 - count
      match gridPoint r i e with
      | some d => ⟨d, e⟩
      | none => search n (count + 1)
  search 20 1

def Scaled.trimmed (s : Scaled) : Scaled :=
  go 25 s
where
  go : Nat → Scaled → Scaled
    | 0, s => s
    | n + 1, s =>
      if s.digits ≠ 0 ∧ s.digits % 10 = 0 then go n ⟨s.digits / 10, s.exponent + 1⟩ else s

def Scaled.positional (s : Scaled) : List Char :=
  let ds := Nat.toDigits 10 s.digits
  if 0 ≤ s.exponent then ds ++ List.replicate s.exponent.toNat '0'
  else
    let places := (-s.exponent).toNat
    if places < ds.length then
      ds.take (ds.length - places) ++ '.' :: ds.drop (ds.length - places)
    else '0' :: '.' :: List.replicate (places - ds.length) '0' ++ ds

/-- A number as messages show it: the shortest decimal in positional notation, whole numbers
without a point. -/
def plain (x : Float) : String :=
  let negative := x.toBits.toNat / Nat.pow 2 63 = 1
  if x.isNaN then "NaN"
  else
    let sign := if negative then "-" else ""
    let size := x.abs
    if size.isInf then sign ++ "inf"
    else if size == 0.0 then sign ++ "0"
    else sign ++ String.ofList (shortest size).trimmed.positional

end AppAtlas.Decimal
