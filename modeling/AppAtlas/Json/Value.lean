import AppAtlas.Decimal.Shortest
import AppAtlas.Text.Quoted

/-! # JSON values

Objects keep their fields in the order of the text and keep repeated ones, because a reader of
records refuses a repeated field. Whole numbers that fit 64 bits stay whole; every other number is a
double.
-/

namespace AppAtlas.Json

inductive Number where
  | natural (n : Nat)
  /-- The negative of a positive number, at most `2 ^ 63`. -/
  | negative (n : Nat)
  | real (x : Float)

inductive Value where
  | null
  | bool (b : Bool)
  | number (n : Number)
  | string (s : String)
  | array (items : List Value)
  | object (fields : List (String × Value))

def Number.toFloat : Number → Float
  | .natural n => Float.ofNat n
  | .negative n => -Float.ofNat n
  | .real x => x

def Value.ofNat (n : Nat) : Value := .number (.natural n)

def Value.ofString? : Option String → Value
  | some s => .string s
  | none => .null

def Value.ofStrings (ss : List String) : Value := .array (ss.map .string)

/-! ### Writing -/

/-- The form of one character inside a string. Line ends of other systems are written by their code
points, so that a written value never spans lines. -/
def escapedChar (c : Char) : List Char :=
  if c = '"' then ['\\', '"']
  else if c = '\\' then ['\\', '\\']
  else if c.toNat < 0x20 ∨ c.toNat = 0x85 ∨ c.toNat = 0x2028 ∨ c.toNat = 0x2029 then
    let digits := Text.hexDigits c.toNat
    ['\\', 'u'] ++ List.replicate (4 - digits.length) '0' ++ digits
  else [c]

def renderString (s : String) : String :=
  String.ofList ('"' :: s.toList.flatMap escapedChar ++ ['"'])

/-- A number. A double always shows that it is one: whole doubles are written with a fraction. -/
def Number.render : Number → String
  | .natural n => toString n
  | .negative n => "-" ++ toString n
  | .real x =>
    let text := Decimal.plain x
    if text.toList.contains '.' then text else text ++ ".0"

mutual

def Value.render : Value → String
  | .null => "null"
  | .bool b => if b then "true" else "false"
  | .number n => n.render
  | .string s => renderString s
  | .array items => "[" ++ ",".intercalate (renderItems items) ++ "]"
  | .object fields => "\x7b" ++ ",".intercalate (renderFields fields) ++ "\x7d"

def renderItems : List Value → List String
  | [] => []
  | v :: vs => v.render :: renderItems vs

def renderFields : List (String × Value) → List String
  | [] => []
  | (k, v) :: rest => (renderString k ++ ":" ++ v.render) :: renderFields rest

end

end AppAtlas.Json
