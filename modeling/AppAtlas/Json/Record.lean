import AppAtlas.Json.Reader

/-! # Records in JSON

A record is an object with known fields; fields of other names are passed over and a known field may
not be repeated. A record may also be given as an array with its values in the order of the fields.

Readers of values are functions `Value → Option α`: a value of the wrong shape has no reading.
-/

namespace AppAtlas.Json

/-! ### Single values -/

def Value.string? : Value → Option String
  | .string s => some s
  | _ => none

def Value.bool? : Value → Option Bool
  | .bool b => some b
  | _ => none

def Value.natural? (bits : Nat) : Value → Option Nat
  | .number (.natural n) => if n < Nat.pow 2 bits then some n else none
  | _ => none

def Value.float? : Value → Option Float
  | .number n => some n.toFloat
  | _ => none

/-- The name of a constant: a string, or an object whose only field has it and holds null. -/
def Value.constant? : Value → Option String
  | .string s => some s
  | .object [(s, .null)] => some s
  | _ => none

def Value.list? {α : Type} (read : Value → Option α) : Value → Option (List α)
  | .array items => items.mapM read
  | _ => none

def Value.option? {α : Type} (read : Value → Option α) : Value → Option (Option α)
  | .null => some none
  | v => (read v).map some

def Value.entries? {α : Type} (read : Value → Option α) : Value → Option (List (String × α))
  | .object fields => fields.mapM fun (k, v) => (read v).map (k, ·)
  | _ => none

/-! ### Records -/

structure Record where
  /-- Whether the record was given as an array. -/
  positional : Bool
  fields : List (String × Value)

def Value.record? (names : List String) : Value → Option Record
  | .object fields =>
    if names.all fun n => (fields.filter fun f => f.1 == n).length ≤ 1 then some ⟨false, fields⟩
    else none
  | .array items => if items.length ≤ names.length then some ⟨true, names.zip items⟩ else none
  | _ => none

def Record.field? (r : Record) (name : String) : Option Value :=
  r.fields.lookup name

def Record.required {α : Type} (r : Record) (name : String) (read : Value → Option α) : Option α := do
  read (← r.field? name)

/-- A field that may be null, and absent unless the record is an array. -/
def Record.optional {α : Type} (r : Record) (name : String) (read : Value → Option α) :
    Option (Option α) :=
  match r.field? name with
  | some v => v.option? read
  | none => if r.positional then none else some none

def Record.defaulted {α : Type} (r : Record) (name : String) (default : α)
    (read : Value → Option α) : Option α :=
  match r.field? name with
  | some v => read v
  | none => some default

end AppAtlas.Json
