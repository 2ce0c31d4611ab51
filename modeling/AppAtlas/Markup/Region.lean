import AppAtlas.Text.Lines

/-! # Blanking regions

Comments and script parts of a page are blanked before the page is searched: every character of a
region becomes a space, except line ends, so that lines keep their numbers. A region runs from an
opening mark to the first closing mark behind it, or to the end of the text when there is none.
-/

namespace AppAtlas.Markup

def blankChar (c : Char) : Char :=
  if c = '\n' then '\n' else ' '

/-- The number of characters of a region that starts here, closed or not. -/
inductive RegionAt where
  | none
  | closed (length : Nat)
  | unclosed
deriving DecidableEq

def regionAt (opening closing cs : List Char) : RegionAt :=
  match opening.isPrefixOf? cs with
  | Option.none => .none
  | some rest =>
    match Text.cut closing rest with
    | some (inside, _) => .closed (opening.length + inside.length + closing.length)
    | Option.none => .unclosed

/-- A text with its regions blanked and the byte offsets of the regions that are not closed.
`inside` is the number of characters left of a region, `offset` that of the first character. -/
def blankFrom (opening closing : List Char) : Nat → Nat → List Char → List Char × List Nat
  | _, offset, [] =>
    match regionAt opening closing [] with
    | .unclosed => ([], [offset])
    | _ => ([], [])
  | inside + 1, offset, c :: cs =>
    let (text, unclosed) := blankFrom opening closing inside (offset + c.utf8Size) cs
    (blankChar c :: text, unclosed)
  | 0, offset, c :: cs =>
    match regionAt opening closing (c :: cs) with
    | .closed (length + 1) =>
      let (text, unclosed) := blankFrom opening closing length (offset + c.utf8Size) cs
      (blankChar c :: text, unclosed)
    | .unclosed => ((c :: cs).map blankChar, [offset])
    | _ =>
      let (text, unclosed) := blankFrom opening closing 0 (offset + c.utf8Size) cs
      (c :: text, unclosed)

/-- A text with its regions blanked, and the byte offsets of those that are not closed. -/
def blankRegions (opening closing text : List Char) : List Char × List Nat :=
  blankFrom opening closing 0 0 text

end AppAtlas.Markup
