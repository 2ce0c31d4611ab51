import AppAtlas.Text.Blank
import AppAtlas.Text.Word

/-! # Searching by pattern

Pages and mapper files are read by looking for shapes in their text. A `Pattern` describes such a
shape. Alternatives are tried in order and repetitions either as long or as short as possible, so a
pattern matches at a place in at most one way: the first in that order which lets the rest of the
pattern match. A search takes the leftmost place where there is a match, and goes on behind it.

The matcher passes the place it has reached to a continuation. A repetition ends because each round
has to take at least one character from what is left.
-/

namespace AppAtlas.Text

inductive Pattern where
  | nothing
  | one (accepts : Char → Bool)
  /-- A place between a word character and something else. -/
  | edge
  | seq (first second : Pattern)
  | alt (first second : Pattern)
  /-- Any number of rounds, as many as possible when `long`, else as few as possible. -/
  | many (long : Bool) (round : Pattern)
  /-- A shape whose text is kept under a number. -/
  | keep (number : Nat) (inner : Pattern)

namespace Pattern

/-! ### Shapes built from others -/

def sequence : List Pattern → Pattern
  | [] => .nothing
  | [p] => p
  | p :: ps => .seq p (sequence ps)

def choice : List Pattern → Pattern
  | [] => .one fun _ => false
  | [p] => p
  | p :: ps => .alt p (choice ps)

def word (s : String) : Pattern :=
  sequence (s.toList.map fun c => .one (· == c))

/-- Whether two characters are the same letter, whatever the case. The long s and the Kelvin sign
count as the letters they stand for. -/
def sameLetter (a b : Char) : Bool :=
  fold a == fold b
where
  fold (c : Char) : Char :=
    if c = 'ſ' then 's' else if c = 'K' then 'k' else c.toLower

def anyCase (s : String) : Pattern :=
  sequence (s.toList.map fun c => .one (sameLetter c))

def oneOf (s : String) : Pattern :=
  .one fun c => s.toList.contains c

def noneOf (s : String) : Pattern :=
  .one fun c => !s.toList.contains c

def many1 (p : Pattern) : Pattern :=
  .seq p (.many true p)

def optional (p : Pattern) : Pattern :=
  .alt p .nothing

def blanks : Pattern :=
  .many true (.one isBlank)

def blanks1 : Pattern :=
  many1 (.one isBlank)

end Pattern

/-- A place in a text: the character before it, what follows it, and its byte offset. -/
structure Place where
  previous : Option Char
  rest : List Char
  offset : Nat

def Place.start (text : List Char) : Place :=
  ⟨none, text, 0⟩

/-- Whether a place lies between a word character and something else. -/
def Place.isEdge (p : Place) : Bool :=
  p.previous.any isWordChar != p.rest.head?.any isWordChar

def Place.next? (p : Place) : Option (Char × Place) :=
  match p.rest with
  | [] => none
  | c :: cs => some (c, ⟨some c, cs, p.offset + c.utf8Size⟩)

def Place.textTo (p q : Place) : List Char :=
  p.rest.take (p.rest.length - q.rest.length)

structure Piece where
  offset : Nat
  text : List Char

abbrev Kept := List (Nat × Piece)

/-- Rounds of a repetition, at most `fuel` of them, each of which takes something. -/
def rounds {α : Type} (long : Bool)
    (step : Place → Kept → (Place → Kept → Option α) → Option α)
    (done : Place → Kept → Option α) : Nat → Place → Kept → Option α
  | 0, p, kept => done p kept
  | fuel + 1, p, kept =>
    let again (_ : Unit) := step p kept fun q kept' =>
      if p.offset < q.offset then rounds long step done fuel q kept' else none
    if long then again () <|> done p kept else done p kept <|> again ()

/-- The first way in which a pattern matches at a place and the continuation accepts. -/
def Pattern.run {α : Type} : Pattern → Place → Kept → (Place → Kept → Option α) → Option α
  | .nothing, p, kept, k => k p kept
  | .one accepts, p, kept, k =>
    match p.next? with
    | some (c, q) => if accepts c then k q kept else none
    | none => none
  | .edge, p, kept, k => if p.isEdge then k p kept else none
  | .seq a b, p, kept, k => a.run p kept fun q kept' => b.run q kept' k
  | .alt a b, p, kept, k => a.run p kept k <|> b.run p kept k
  | .many long a, p, kept, k =>
    rounds long (fun q kept' k' => a.run q kept' k') k p.rest.length p kept
  | .keep n a, p, kept, k =>
    a.run p kept fun q kept' => k q ((n, ⟨p.offset, p.textTo q⟩) :: kept')

structure Match where
  whole : Piece
  kept : Kept
  after : Place

def Match.piece? (m : Match) (number : Nat) : Option Piece :=
  m.kept.lookup number

/-- The text kept under a number, as a string; empty when there is none. -/
def Match.text (m : Match) (number : Nat) : String :=
  match m.piece? number with
  | some piece => String.ofList piece.text
  | none => ""

def Match.stop (m : Match) : Nat :=
  m.after.offset

def Pattern.matchAt? (pat : Pattern) (p : Place) : Option Match :=
  pat.run p [] fun q kept => some ⟨⟨p.offset, p.textTo q⟩, kept, q⟩

/-- The leftmost match of a pattern at a place or behind it, `fuel` places at most being tried. -/
def Pattern.searchFrom? (pat : Pattern) : Nat → Place → Option Match
  | 0, p => pat.matchAt? p
  | fuel + 1, p =>
    match pat.matchAt? p with
    | some m => some m
    | none =>
      match p.next? with
      | some (_, q) => pat.searchFrom? fuel q
      | none => none

def Pattern.find? (pat : Pattern) (text : List Char) : Option Match :=
  pat.searchFrom? text.length (.start text)

def Pattern.occursIn (pat : Pattern) (text : List Char) : Bool :=
  (pat.find? text).isSome

def Pattern.findAtStart? (pat : Pattern) (text : List Char) : Option Match :=
  pat.matchAt? (.start text)

/-- The matches of a pattern one behind the other, at most `fuel` of them. -/
def Pattern.findAllFrom (pat : Pattern) : Nat → Place → List Match
  | 0, _ => []
  | fuel + 1, p =>
    match pat.searchFrom? p.rest.length p with
    | none => []
    | some m =>
      if p.offset < m.after.offset then m :: pat.findAllFrom fuel m.after
      else
        match p.next? with
        | some (_, q) => m :: pat.findAllFrom fuel q
        | none => [m]

/-- All matches of a pattern in a text, from left to right, none overlapping another. -/
def Pattern.findAll (pat : Pattern) (text : List Char) : List Match :=
  pat.findAllFrom (text.length + 1) (.start text)

/-- A text with some occurrences replaced, `p` being a place before the first of them. -/
def replaceMatches (new : List Char) (p : Place) : List Match → List Char
  | [] => p.rest
  | m :: ms =>
    let before := p.rest.take (p.rest.length - m.whole.text.length - m.after.rest.length)
    before ++ new ++ replaceMatches new m.after ms

def Pattern.replaceAll (pat : Pattern) (new text : List Char) : List Char :=
  replaceMatches new (.start text) (pat.findAll text)

end AppAtlas.Text
