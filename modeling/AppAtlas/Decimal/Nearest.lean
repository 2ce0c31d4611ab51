/-! # The double nearest to a decimal -/

namespace AppAtlas.Decimal

/-- The double nearest to `digits · 10 ^ exponent`. Decimals far outside the range of doubles are
zero or infinite without being computed. -/
def nearest (digits : Nat) (exponent : Int) : Float :=
  let magnitude : Int := (Nat.toDigits 10 digits).length + exponent
  if digits = 0 ∨ magnitude < -400 then 0.0
  else if 400 < magnitude then 1.0 / 0.0
  else if 0 ≤ exponent then Float.ofScientific (digits * Nat.pow 10 exponent.toNat) false 0
  else Float.ofScientific digits true (-exponent).toNat

end AppAtlas.Decimal
