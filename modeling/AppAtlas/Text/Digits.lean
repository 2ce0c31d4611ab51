/-! # Digits and code points -/

namespace AppAtlas.Text

/-- The value of a digit in a base up to sixteen, letters of either case. -/
def digitIn? (base : Nat) (c : Char) : Option Nat :=
  let v :=
    if '0' ≤ c ∧ c ≤ '9' then some (c.toNat - 48)
    else if 'a' ≤ c ∧ c ≤ 'f' then some (c.toNat - 87)
    else if 'A' ≤ c ∧ c ≤ 'F' then some (c.toNat - 55)
    else none
  v.filter (· < base)

def valueIn (base : Nat) (digits : List Char) : Nat :=
  digits.foldl (fun n d => base * n + (digitIn? base d).getD 0) 0

def decimalValue (digits : List Char) : Nat := valueIn 10 digits

def charOf? (n : Nat) : Option Char :=
  if n.isValidChar then some (Char.ofNat n) else none

end AppAtlas.Text
