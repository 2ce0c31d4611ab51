import AppAtlas.Identity
import AppAtlas.Text.Digits

/-! # Character references in markup

The five named references and the numeric ones, decimal or hexadecimal, stand for one character.
Anything else behind an ampersand is plain text. A reference with its ampersand and semicolon takes
at most eleven bytes.
-/

namespace AppAtlas.Markup

def numericEntity? (name : List Char) : Option Char :=
  let hex := match name with
    | '#' :: 'x' :: ds => (readNatural 16 (Nat.pow 2 32) ds).toOption
    | '#' :: 'X' :: ds => (readNatural 16 (Nat.pow 2 32) ds).toOption
    | _ => none
  let decimal := match name with
    | '#' :: ds => (readNatural 10 (Nat.pow 2 32) ds).toOption
    | _ => none
  (hex <|> decimal).bind Text.charOf?

/-- The character a reference stands for, given what is between ampersand and semicolon. -/
def entity? (name : List Char) : Option Char :=
  if name = "lt".toList then some '<'
  else if name = "gt".toList then some '>'
  else if name = "amp".toList then some '&'
  else if name = "quot".toList then some '"'
  else if name = "apos".toList then some '\''
  else numericEntity? name

/-- The reference at the start of the text behind an ampersand: its character and the number of
characters it takes there, semicolon included. -/
def entityAt? (cs : List Char) : Option (Char × Nat) := do
  let (name, _) ← Text.cutWhere (· == ';') cs
  if Text.byteSize name + 1 ≤ 10 then
    let c ← entity? name
    some (c, name.length + 1)
  else none

def decodeFrom : Nat → List Char → List Char
  | _, [] => []
  | skip + 1, _ :: cs => decodeFrom skip cs
  | 0, c :: cs =>
    if c = '&' then
      match entityAt? cs with
      | some (d, skip) => d :: decodeFrom skip cs
      | none => c :: decodeFrom 0 cs
    else c :: decodeFrom 0 cs

def decodeEntities (cs : List Char) : List Char :=
  decodeFrom 0 cs

/-- A text without ampersands holds no reference. -/
theorem decodeEntities_of_not_mem {cs : List Char} (h : '&' ∉ cs) : decodeEntities cs = cs := by
  unfold decodeEntities
  induction cs with
  | nil => rfl
  | cons c cs ih =>
    rw [List.mem_cons, not_or] at h
    simp [decodeFrom, Ne.symm h.1, ih h.2]

end AppAtlas.Markup
