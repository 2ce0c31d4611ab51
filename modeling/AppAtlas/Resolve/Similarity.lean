import AppAtlas.Confidence
import AppAtlas.Route

/-! # Similarity

How well something that is not quite the target fits it, as a number up to one: the share of a
route's segments that are literally those of the request, the share of a path's last segments that
two pages have in common, the share of a table's name that a name with gaps spells out.
-/

namespace AppAtlas

/-! ### Routes -/

namespace Route

def isTemplate (segment : List Char) : Bool := segment.contains '\x7b'

def stemSegments (route : String) : List (List Char) := segments (stemChars route.toList)

/-- The number of literally equal segments, if all others are matched by a template on either
side. -/
def literalMatches? : List (List Char) → List (List Char) → Option Nat
  | a :: as, b :: bs =>
    if isTemplate a || isTemplate b then literalMatches? as bs
    else if a = b then (literalMatches? as bs).map (· + 1)
    else none
  | _, _ => some 0

/-- How well a request fits a route: the share of the route's segments that are literally equal. A
relative request may fit the end of a route. -/
def similarity? {κ : Type} [Confidence κ] (request route : String) (relative : Bool) : Option κ :=
  let asked := stemSegments request
  let full := stemSegments route
  if asked.isEmpty || full.isEmpty then none
  else if asked.length = full.length || (relative && asked.length < full.length) then
    (literalMatches? asked (full.drop (full.length - asked.length))).map
      (Confidence.ratio · full.length)
  else none

end Route

/-! ### Pages -/

/-- The number of segments that two reversed paths have in common at their start, in letters of
either case. -/
def commonSegments : List (List Char) → List (List Char) → Nat
  | a :: as, b :: bs => if Text.sameLetters a b then commonSegments as bs + 1 else 0
  | _, _ => 0

/-- The share of last segments that two web paths have in common. -/
def trailingSimilarity {κ : Type} [Confidence κ] (a b : String) : κ :=
  let left := Route.segments a.toList
  let right := Route.segments b.toList
  Confidence.ratio (commonSegments left.reverse right.reverse) (max (max left.length right.length) 1)

/-! ### Tables -/

structure TablePattern where
  pieces : List (List Char)
  anchoredStart : Bool
  /-- Whether the name ends with the last piece. -/
  anchoredEnd : Bool
deriving DecidableEq, Repr

namespace TablePattern

/-- A pattern without its schema: what follows the last dot outside braces, in lower case. -/
def unqualified (pattern : List Char) : List Char :=
  let step : Int × List Char → Char → Int × List Char
    | (depth, kept), '\x7b' => (depth + 1, kept ++ ['\x7b'])
    | (depth, kept), '\x7d' => (depth - 1, kept ++ ['\x7d'])
    | (depth, kept), c => if c = '.' ∧ depth = 0 then (depth, []) else (depth, kept ++ [c])
  Text.lower (pattern.foldl step (0, [])).2

/-- The pieces between gaps, and whether the last ends the text. A gap runs from a dollar sign and
brace to the closing brace or the end; `piece` is what was read since the last gap. -/
def piecesFrom (inGap : Bool) (piece : List Char) : List Char → List (List Char) × Bool
  | [] => if inGap || piece.isEmpty then ([], false) else ([piece], true)
  | c :: rest =>
    if inGap then piecesFrom (c != '\x7d') [] rest
    else
      match c, rest with
      | '$', '\x7b' :: after =>
        let (pieces, anchored) := piecesFrom true [] after
        (if piece.isEmpty then pieces else piece :: pieces, anchored)
      | c, rest => piecesFrom false (piece ++ [c]) rest

def parse? (text : String) : Option TablePattern :=
  let name := unqualified text.toList
  let (pieces, anchoredEnd) := piecesFrom false [] name
  if pieces.isEmpty then none
  else
    some
      { pieces := pieces
        anchoredStart := !(['$', '\x7b'].isPrefixOf name)
        anchoredEnd := anchoredEnd }

/-- Whether pieces occur in a text one after the other, the last one at the end if it has to be. -/
def occurIn (anchoredEnd : Bool) : List (List Char) → List Char → Bool
  | [], _ => true
  | [last], text =>
    if anchoredEnd then (Text.stripEnd? last text).isSome else Text.holds last text
  | piece :: pieces, text =>
    match Text.cut piece text with
    | some (_, after) => occurIn anchoredEnd pieces after
    | none => false

def fits (p : TablePattern) (name : List Char) : Bool :=
  match p.pieces, p.anchoredStart with
  | first :: pieces, true =>
    first.isPrefixOf name && occurIn p.anchoredEnd pieces (name.drop first.length)
  | pieces, _ => occurIn p.anchoredEnd pieces name

def literalSize (p : TablePattern) : Nat := Text.byteSize p.pieces.flatten

/-- The share of a name that a pattern spells out, if the name fits and leaves room for a gap. -/
def similarity? {κ : Type} [Confidence κ] (p : TablePattern) (table : String) : Option κ :=
  let size := Text.byteSize table.toList
  if p.fits table.toList && p.literalSize < size then some (Confidence.ratio p.literalSize size)
  else none

end TablePattern

end AppAtlas
