import AppAtlas.Text.Blank

/-! # Paths of source files

A file is known by its normalised path: forward slashes, no leading `./`, no two slashes in a row.
-/

namespace AppAtlas.FilePath

def unify (cs : List Char) : List Char :=
  cs.map fun c => if c = '\\' then '/' else c

/-- A path without its leading `./`, as often as there is one. -/
def dropHere : List Char → List Char
  | '.' :: '/' :: rest => dropHere rest
  | cs => cs

/-- Runs of slashes made single; `after` says whether a slash stands before the text. -/
def collapse (after : Bool) : List Char → List Char
  | [] => []
  | c :: cs =>
    if c = '/' then if after then collapse true cs else c :: collapse true cs
    else c :: collapse false cs

def normalizeChars (cs : List Char) : List Char :=
  collapse false (dropHere (unify cs))

def normalize (path : String) : String :=
  Text.onString normalizeChars path

/-- The last component of a path as far as it names a file. Slashes at the end and components `.`
do not count, and `..` names none. -/
def fileName? (cs : List Char) : Option (List Char) :=
  match ((Text.filledSegments (· == '/') cs).filter (· != ['.'])).getLast? with
  | some last => if last = ['.', '.'] then none else some last
  | none => none

/-- The file name in front of its last dot, the dot not being its first character, and the part
behind it. -/
def stemAndExtension (name : List Char) : List Char × Option (List Char) :=
  match Text.cutLast '.' name with
  | some (stem, ext) => if stem.isEmpty then (name, none) else (stem, some ext)
  | none => (name, none)

def stem? (cs : List Char) : Option (List Char) :=
  (fileName? cs).map fun name => (stemAndExtension name).1

def extension? (cs : List Char) : Option (List Char) :=
  (fileName? cs).bind fun name => (stemAndExtension name).2

end AppAtlas.FilePath
