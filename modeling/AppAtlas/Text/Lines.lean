import AppAtlas.Text.Basic

/-! # Line numbers

Lines are counted from one. An offset is a number of bytes from the start of the text; its line is
one more than the number of line ends before it.
-/

namespace AppAtlas.Text

/-- The byte offsets at which the lines of a text start, the first character of the text being at
`offset`. -/
def lineStartsFrom (offset : Nat) : List Char → List Nat
  | [] => []
  | c :: cs =>
    let next := offset + c.utf8Size
    if c = '\n' then next :: lineStartsFrom next cs else lineStartsFrom next cs

structure Lines where
  starts : List Nat
deriving DecidableEq

def Lines.of (text : List Char) : Lines :=
  ⟨0 :: lineStartsFrom 0 text⟩

def Lines.lineOf (lines : Lines) (offset : Nat) : Nat :=
  lines.starts.countP (· ≤ offset)

def Lines.count (lines : Lines) : Nat :=
  lines.starts.length

def newlines (text : List Char) : Nat :=
  text.countP (· == '\n')

@[simp] theorem newlines_nil : newlines [] = 0 := rfl

@[simp] theorem newlines_append (a b : List Char) :
    newlines (a ++ b) = newlines a + newlines b := by
  simp [newlines]

/-- The number of lines is one more than the number of line ends. -/
theorem Lines.count_of (text : List Char) : (Lines.of text).count = newlines text + 1 := by
  have aux : ∀ (cs : List Char) (n : Nat), (lineStartsFrom n cs).length = newlines cs := by
    intro cs
    induction cs with
    | nil => intro n; rfl
    | cons c cs ih =>
      intro n
      by_cases h : c = '\n' <;> simp [lineStartsFrom, newlines, h] <;> simpa [newlines] using ih _
  simp [Lines.of, Lines.count, aux]

theorem newlines_le_length (text : List Char) : newlines text ≤ text.length :=
  List.countP_le_length

/-- No line number is above the number of lines, so those of a text below four gigabytes take 32
bits. -/
theorem Lines.lineOf_of_le (text : List Char) (offset : Nat) :
    (Lines.of text).lineOf offset ≤ newlines text + 1 :=
  count_of text ▸ List.countP_le_length

/-- The lines of a text without their ends. A line ends at a line feed, or at a carriage return
directly before one; what follows the last line feed is a line if it is not empty. -/
def linesOf (text : List Char) : List (List Char) :=
  go (segments (· == '\n') text)
where
  go : List (List Char) → List (List Char)
    | [] => []
    | [last] => if last.isEmpty then [] else [last]
    | line :: rest => (stripEnd? ['\r'] line).getD line :: go rest

end AppAtlas.Text
