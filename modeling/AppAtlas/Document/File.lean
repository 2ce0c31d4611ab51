import AppAtlas.Document.Rows
import AppAtlas.Settings.Basic

/-! # Files with a saved graph

A graph is saved to a JSON file or to a database. A JSON file is replaced as a whole. Saving to a
database is one transaction: if it fails, the database holds what it held before, which for a new
one is nothing.
-/

namespace AppAtlas

inductive SavedFile where
  | json (text : String)
  | database (content : Database)

namespace SavedFile

def databaseOf : Option SavedFile → Database
  | some (database db) => db
  | _ => {}

/-- A document saved over what there was: the file after that, and whether saving worked. -/
def save (format : SaveFormat) (held : Option SavedFile) (d : Document Float) :
    SavedFile × Except (SaveError Float) Unit :=
  match format with
  | .json => (json d.toText, .ok ())
  | .sqlite =>
    match Database.ofDocument d with
    | .ok db => (database db, .ok ())
    | .error e => (database (databaseOf held), .error e)

def load : Option SavedFile → Except (SaveError Float) (Document Float)
  | some (json text) => Document.ofText text
  | some (database db) => db.load
  | none => .error .noFile

end SavedFile

end AppAtlas
