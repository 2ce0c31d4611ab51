import AppAtlas.Text.Blank
import AppAtlas.Text.Digits

/-! # Readers of texts

A reader takes something off the front of a text or fails. The text that is left is its state.
-/

namespace AppAtlas.Text

abbrev Reader := StateT (List Char) Option

namespace Reader

def peek? : Reader (Option Char) := return (← get).head?

def satisfy (p : Char → Bool) : Reader Char := do
  match ← get with
  | c :: cs => if p c then set cs; pure c else failure
  | [] => failure

def oneOf (chars : List Char) : Reader Char := satisfy chars.contains

def mark (c : Char) : Reader Unit := discard (oneOf [c])

/-- The longest front of characters for which a test holds. -/
def span (p : Char → Bool) : Reader (List Char) := do
  let cs ← get
  set (cs.dropWhile p)
  pure (cs.takeWhile p)

def word? (w : List Char) : Reader Bool := do
  let cs ← get
  if w.isPrefixOf cs then
    set (cs.drop w.length)
    pure true
  else pure false

def blanks : Reader Unit := discard (span isBlank)

def all {α : Type} (r : Reader α) (cs : List Char) : Option α := do
  let (a, rest) ← r.run cs
  guard rest.isEmpty
  pure a

end Reader

end AppAtlas.Text
