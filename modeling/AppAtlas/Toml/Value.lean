import AppAtlas.Decimal.Shortest

/-! # TOML values

A TOML text is a table of values. How a table was written decides whether later lines may add to it,
so tables remember it.
-/

namespace AppAtlas.Toml

inductive Form where
  /-- Between braces; nothing can be added. -/
  | inline
  /-- Only as a part of the name of another table. -/
  | implied
  | dotted
  | headed
deriving DecidableEq, Repr

inductive Value where
  | string (s : String)
  | integer (n : Int)
  | float (x : Float)
  | bool (b : Bool)
  /-- A date, a time of day, or both. -/
  | moment
  | array (items : List Value)
  /-- Tables under a repeated header. -/
  | tables (items : List Value)
  | table (form : Form) (entries : List (String × Value))

abbrev Entries := List (String × Value)

namespace Value

def string? : Value → Option String
  | string s => some s
  | _ => none

def float? : Value → Option Float
  | float x => some x
  | integer n => some (Float.ofInt n)
  | _ => none

def natural? : Value → Option Nat
  | integer n => if 0 ≤ n then some n.toNat else none
  | _ => none

def strings? : Value → Option (List String)
  | array items => items.mapM string?
  | tables items => items.mapM string?
  | _ => none

def isHollow : Value → Bool
  | array items => items.isEmpty
  | tables items => items.isEmpty
  | table _ entries => entries.isEmpty
  | _ => false

/-- The name of a constant: a string, or a table whose only entry has it and holds nothing. -/
def constant? : Value → Option String
  | string s => some s
  | table _ [(s, v)] => if v.isHollow then some s else none
  | _ => none

/-- The fields of a record by name; an array gives the fields in the order of `names`. -/
def fields? (names : List String) : Value → Option Entries
  | table _ entries => some entries
  | array items => some (names.zip items)
  | tables items => some (names.zip items)
  | _ => none

end Value

def field {α : Type} (entries : Entries) (name : String) (default : α) (read : Value → Option α) :
    Option α :=
  match entries.lookup name with
  | some v => read v
  | none => some default

end AppAtlas.Toml
