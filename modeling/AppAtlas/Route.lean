import AppAtlas.Text.Blank

/-! # Routes

A route is the path part of a web address. Its normal form has one leading slash and neither empty
segments nor a query. The *stem* of a route drops the extension of its last segment, so that
`/user/list.do` and `/user/list` have one stem; the *tail* is the last segment of the stem, where a
template segment such as `{id}` counts as an unnamed one.
-/

namespace AppAtlas.Route

def withoutQuery (cs : List Char) : List Char :=
  cs.takeWhile fun c => c != '?' && c != '#'

def segments (cs : List Char) : List (List Char) :=
  Text.filledSegments (· == '/') cs

def ofSegments (ss : List (List Char)) : List Char :=
  '/' :: Text.joinWith ['/'] ss

def normalizeChars (cs : List Char) : List Char :=
  ofSegments (segments (withoutQuery (Text.trim cs)))

def stemChars (cs : List Char) : List Char :=
  let route := normalizeChars cs
  match Text.cutLast '/' route with
  | some (dir, last) =>
    match Text.cutLast '.' last with
    | some (stem, _) => if stem.isEmpty then route else dir ++ '/' :: stem
    | none => route
  | none => route

def tailChars (cs : List Char) : List Char :=
  let last := Text.afterLast '/' (stemChars cs)
  if last.contains '\x7b' then ['\x7b', '\x7d'] else last

def normalize (s : String) : String := Text.onString normalizeChars s

def stem (s : String) : String := Text.onString stemChars s

def tail (s : String) : String := Text.onString tailChars s

/-- The tail shared by all routes that end in a template segment. -/
def templateTail : String := "\x7b\x7d"

end AppAtlas.Route
