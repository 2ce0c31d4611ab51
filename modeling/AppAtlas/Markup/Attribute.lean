import AppAtlas.Finding
import AppAtlas.Markup.Entity
import AppAtlas.Text.Pattern

/-! # Attributes of tags

The attributes of a tag are the `name="value"` and `name='value'` pairs in its text. Of two with one
name the later one counts. Values may hold character references.
-/

namespace AppAtlas.Markup

open Text (Pattern)

def isNameStart (c : Char) : Bool :=
  c.isAlpha || c == '_' || c == ':'

def isNameChar (c : Char) : Bool :=
  c.isAlphanum || c == '-' || c == '_' || c == ':' || c == '.'

def attributePattern : Pattern :=
  .sequence [
    .keep 1 (.seq (.one isNameStart) (.many true (.one isNameChar))),
    .blanks, .word "=", .blanks,
    .alt
      (.sequence [.word "\"", .keep 2 (.many true (.noneOf "\"")), .word "\""])
      (.sequence [.word "'", .keep 3 (.many true (.noneOf "'")), .word "'"])]

def attributes (tag : List Char) : Attributes :=
  (attributePattern.findAll tag).foldl (fun attrs m =>
    match m.piece? 2 <|> m.piece? 3 with
    | some value => attrs.insert (m.text 1) (String.ofList (decodeEntities value.text))
    | none => attrs) ∅

end AppAtlas.Markup
