import AppAtlas.Extract.Schema
import AppAtlas.Proofs.Text.Cuts

/-!
# Rows written with quotes

A field between quotes may hold anything: its delimiters are text, and its quotes are written twice.
The reader knows the quote that closes a field from the first of a doubled one by what follows it,
which behind a field is the delimiter or the end of the line and never a quote.

* `quoteField`, `writeRow`: how fields are written.
* `go_quoteField`: a field is read back, whatever is read behind it.
* `splitFields_writeRow`: a row is read back.
-/

namespace AppAtlas.Extract

open List

variable {delimiter : Char} {rest : List Char}

def doubleQuotes (field : List Char) : List Char :=
  field.flatMap fun c => if c = '"' then ['"', '"'] else [c]

def quoteField (field : List Char) : List Char :=
  '"' :: doubleQuotes field ++ ['"']

def writeRow (delimiter : Char) (fields : List (List Char)) : List Char :=
  Text.joinWith [delimiter] (fields.map quoteField)

/-! ### Steps of the reader -/

namespace splitFields

theorem go_opening (rest : List Char) :
    go delimiter false ('"' :: rest) = go delimiter true rest := by
  rw [splitFields.go.eq_def]
  rfl

theorem go_doubled (rest : List Char) :
    go delimiter true ('"' :: '"' :: rest) = extend '"' (go delimiter true rest) :=
  rfl

theorem go_closing (h : rest.head? ≠ some '"') :
    go delimiter true ('"' :: rest) = go delimiter false rest := by
  rw [splitFields.go.eq_def]
  dsimp only
  rw [if_pos rfl, if_pos rfl]
  split
  · exact absurd rfl h
  · rfl

theorem go_inside {c : Char} (h : c ≠ '"') (rest : List Char) :
    go delimiter true (c :: rest) = extend c (go delimiter true rest) := by
  simp [splitFields.go.eq_def delimiter true (c :: rest), h]

theorem go_delimiter (h : delimiter ≠ '"') (rest : List Char) :
    go delimiter false (delimiter :: rest) = [] :: go delimiter false rest := by
  simp [splitFields.go.eq_def delimiter false (delimiter :: rest), h]

/-! ### Rows -/

/-- **A field is read back** up to its closing quote; what is read behind it goes on from there. -/
theorem go_quoteField (field : List Char) {next : List Char} {others : List (List Char)}
    (hrest : rest.head? ≠ some '"') (hread : go delimiter false rest = next :: others) :
    go delimiter false (quoteField field ++ rest) = (field ++ next) :: others := by
  rw [quoteField, append_assoc, cons_append, singleton_append, go_opening]
  induction field with
  | nil => exact (go_closing hrest).trans hread
  | cons c field ih =>
    rw [doubleQuotes, flatMap_cons, append_assoc, ← doubleQuotes]
    by_cases hc : c = '"'
    · rw [if_pos hc, cons_append, singleton_append, go_doubled, ih, hc]
      rfl
    · rw [if_neg hc, singleton_append, go_inside hc, ih]
      rfl

theorem head?_flatMap_ne (h : delimiter ≠ '"') (fields : List (List Char)) :
    (fields.flatMap ([delimiter] ++ ·)).head? ≠ some '"' := by
  cases fields <;> simp [h]

theorem go_flatMap_quoteField (h : delimiter ≠ '"') (fields : List (List Char)) :
    go delimiter false ((fields.map quoteField).flatMap ([delimiter] ++ ·)) = [] :: fields := by
  induction fields with
  | nil => rfl
  | cons field fields ih =>
    rw [map_cons, flatMap_cons, append_assoc, singleton_append, go_delimiter h,
      go_quoteField field (head?_flatMap_ne h _) ih, append_nil]

end splitFields

/-- **Rows are read back.**  Fields of any text, written between quotes with the delimiter between
any two, are the fields that are read, without the white space at their ends. -/
theorem splitFields_writeRow {fields : List (List Char)} (h : delimiter ≠ '"') (hne : fields ≠ []) :
    splitFields delimiter (writeRow delimiter fields) = fields.map Text.trim := by
  obtain ⟨field, fields, rfl⟩ := exists_cons_of_ne_nil hne
  rw [splitFields, writeRow, map_cons, Text.joinWith_cons,
    splitFields.go_quoteField field (splitFields.head?_flatMap_ne h _)
      (splitFields.go_flatMap_quoteField h fields), append_nil]

/-- Quotes at both ends of a field, a delimiter inside it and an empty field. -/
theorem splitFields_quotes_at_ends :
    writeRow ',' ["\"a\",b\" ".toList, []] = "\"\"\"a\"\",b\"\" \",\"\"".toList ∧
      splitFields ',' (writeRow ',' ["\"a\",b\" ".toList, []]) = ["\"a\",b\"".toList, []] :=
  ⟨by decide, (splitFields_writeRow (by decide) (by decide)).trans (by decide)⟩

end AppAtlas.Extract
