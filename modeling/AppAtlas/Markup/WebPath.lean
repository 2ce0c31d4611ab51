import AppAtlas.FilePath

/-! # Web paths

The web path of a page is its path below the root directory of the web application. Links in a page
are joined to the page's own web path; its directory is the scope of the page.
-/

namespace AppAtlas.Markup

/-- The directories below which web paths start, wherever they stand in a path. -/
def innerRoots : List String := ["/webapp/", "/WebContent/", "/WebRoot/", "/web/"]

/-- The directories below which web paths start when a path starts with them. -/
def leadingRoots : List String := ["webapp/", "WebContent/", "WebRoot/"]

def belowInnerRoot? (path : List Char) : Option (List Char) :=
  innerRoots.findSome? fun root => (Text.cut root.toList path).map (·.2)

def belowLeadingRoot? (path : List Char) : Option (List Char) :=
  leadingRoots.findSome? fun root => root.toList.isPrefixOf? path

def webPathChars (file : List Char) : List Char :=
  let path := FilePath.normalizeChars file
  match belowInnerRoot? path <|> belowLeadingRoot? path with
  | some rest => '/' :: rest
  | none =>
    match Text.cut "/WEB-INF/".toList path with
    | some (_, rest) => "/WEB-INF/".toList ++ rest
    | none => if path.head? = some '/' then path else '/' :: path

def webPath (file : String) : String := Text.onString webPathChars file

/-- Segments with `.` and `..` worked out, `done` being those so far, the last first. -/
def resolveDots (done : List (List Char)) : List (List Char) → List (List Char)
  | [] => done.reverse
  | s :: ss =>
    if s = [] ∨ s = ['.'] then resolveDots done ss
    else if s = ['.', '.'] then resolveDots done.tail ss
    else resolveDots (s :: done) ss

def joinWebPathChars (base link : List Char) : List Char :=
  let path :=
    if link.head? = some '/' then link
    else
      let dir := match Text.cutLast '/' base with
        | some (dir, _) => dir
        | none => []
      dir ++ '/' :: link
  '/' :: Text.joinWith ['/'] (resolveDots [] (Text.segments (· == '/') path))

def joinWebPath (base link : String) : String :=
  String.ofList (joinWebPathChars base.toList link.toList)

def webDir (path : String) : String :=
  match Text.cutLast '/' path.toList with
  | some (dir, _) => if dir.isEmpty then "/" else String.ofList dir
  | none => "/"

end AppAtlas.Markup
