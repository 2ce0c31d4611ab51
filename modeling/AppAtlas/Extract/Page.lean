import AppAtlas.Extract.Options
import AppAtlas.Finding
import AppAtlas.Markup.Attribute
import AppAtlas.Markup.Region
import AppAtlas.Markup.WebPath

/-! # Pages

A page refers to the pages it includes and to the routes it leads to: by forms, links, navigation in
scripts and requests from scripts. Comments are blanked first. A link with an expression in it
counts less; links to other servers, to static files and within the page do not count.
-/

namespace AppAtlas.Extract

open Text (Pattern)

/-! ### Shapes of links -/

/-- A text between quotes of either kind, kept under a number. -/
def quotedPattern (number : Nat) : Pattern :=
  .sequence [.oneOf "\"'", .keep number (.many1 (.noneOf "\"'")), .oneOf "\"'"]

def assignedPattern (name : Pattern) (number : Nat) : Pattern :=
  .sequence [name, .blanks, .word "=", .blanks, quotedPattern number]

/-- Whatever stands inside a tag before something, as little as possible. -/
def insideTag : Pattern :=
  .many false (.noneOf ">")

def includeDirective : Pattern :=
  .sequence [.word "<%@", .blanks, .word "include", .blanks1, assignedPattern (.word "file") 1]

def includeTag : Pattern :=
  .sequence [
    .word "<",
    .choice [
      .seq (.word "jsp:") (.choice [.word "include", .word "forward"]),
      .word "c:import"],
    .edge, insideTag, .edge,
    assignedPattern (.choice [.word "page", .word "url"]) 1]

def formTag : Pattern :=
  .sequence [.anyCase "<form", .edge, .keep 1 (.many true (.noneOf ">")), .word ">"]

def linkTag : Pattern :=
  .sequence [.anyCase "<a", .edge, insideTag, .edge, assignedPattern (.anyCase "href") 1]

def urlTag : Pattern :=
  .sequence [.word "<c:url", .edge, insideTag, .edge, assignedPattern (.word "value") 1]

def scriptNavigation : Pattern :=
  .alt
    (.sequence [.edge,
      assignedPattern (.seq (.word "location") (.optional (.word ".href"))) 1])
    (.sequence [.edge, .word "location.", .choice [.word "assign", .word "replace"], .blanks,
      .word "(", .blanks, quotedPattern 2])

def scriptRequest : Pattern :=
  .alt
    (.sequence [.word "$.",
      .keep 1 (.choice [.word "ajax", .word "get", .word "post", .word "getJSON"]), .blanks,
      .word "(", .blanks, quotedPattern 2])
    (.sequence [.edge, .word "fetch", .blanks, .word "(", .blanks, quotedPattern 3])

def urlOption : Pattern :=
  .sequence [.edge, .word "url", .blanks, .word ":", .blanks, quotedPattern 1]

def verbOption : Pattern :=
  .sequence [.edge, .choice [.anyCase "type", .anyCase "method"], .blanks, .word ":", .blanks,
    .oneOf "\"'",
    .keep 1 (.choice [.anyCase "get", .anyCase "post", .anyCase "put", .anyCase "delete",
      .anyCase "patch"]),
    .oneOf "\"'"]

/-- Expressions for the path under which the application runs. -/
def contextPath : Pattern :=
  .alt
    (.sequence [.word "$\x7b", .blanks,
      .choice [.word "pageContext.request.contextPath", .word "pageContext.servletContext.contextPath",
        .word "ctx", .word "ctxPath", .word "contextPath", .word "basePath", .word "base"],
      .blanks, .word "\x7d"])
    (.sequence [.word "<%=", .blanks,
      .choice [.word "request.getContextPath()", .word "path", .word "basePath", .word "ctx"],
      .blanks, .word "%>"])

def sameLine : Pattern := .one (· != '\n')

def expressionPattern : Pattern :=
  .choice [
    .sequence [.word "$\x7b", .many true (.noneOf "\x7d"), .word "\x7d"],
    .sequence [.word "#\x7b", .many true (.noneOf "\x7d"), .word "\x7d"],
    .sequence [.word "<%=", .many false sameLine, .word "%>"],
    .sequence [.word "\x7b\x7b", .many false sameLine, .word "\x7d\x7d"]]

/-! ### Addresses -/

structure Address where
  /-- The path, every expression in it replaced by an unnamed template segment. -/
  path : List Char
  dynamic : Bool
deriving DecidableEq, Repr

def staticEndings : List String :=
  [".css", ".js", ".png", ".jpg", ".jpeg", ".gif", ".svg", ".ico", ".pdf", ".woff", ".woff2",
    ".ttf", ".map"]

def pageEndings : List String := [".jsp", ".jspx", ".html", ".htm"]

def endsInAny (endings : List String) (cs : List Char) : Bool :=
  endings.any fun e => (Text.stripEnd? e.toList (Text.lower cs)).isSome

/-- Whether an address leads out of the application or stays on the page. -/
def isForeign (cs : List Char) : Bool :=
  let starts (lead : String) (cs : List Char) := lead.toList.isPrefixOf cs
  cs.isEmpty || starts "#" cs || starts "<" cs || starts "//" cs ||
    Text.holds "://".toList cs ||
    ["javascript:", "mailto:", "tel:", "data:"].any fun scheme => starts scheme (Text.lower cs)

/-- The address that a text in a page gives, if it leads to a route or page of the application. -/
def address? (raw : List Char) : Option Address :=
  let decoded := Markup.decodeEntities (Text.trim raw)
  let stripped :=
    match contextPath.findAtStart? decoded with
    | some m => m.after.rest
    | none => decoded
  if isForeign stripped then none
  else
    let path := Text.trim
      (Route.withoutQuery (expressionPattern.replaceAll ['\x7b', '\x7d'] stripped))
    if !path.any Char.isAlphanum || endsInAny staticEndings path then none
    else some ⟨path, expressionPattern.occursIn stripped⟩

/-! ### Findings -/

variable {κ : Type} [Confidence κ]

structure PageReader (κ : Type) where
  options : Options κ
  kind : NodeKind
  web : String
  lines : Text.Lines
  findings : FindingSet κ

namespace PageReader

def add (p : PageReader κ) (edge : EdgeKind) (target : Target) (offset : Nat) (dynamic : Bool)
    (note : Option String) : PageReader κ :=
  let known := p.findings.references.any fun r =>
    r.edge == edge && r.target.describe == target.describe
  if known then p
  else
    let confidence := if dynamic then p.options.dynamicUrlConfidence else 1.0
    let r := (Reference.of p.kind p.web edge target (p.lines.lineOf offset)).withConfidence confidence
    { p with findings := p.findings.refer { r with note := note } }

def addInclude (p : PageReader κ) (raw : List Char) (offset : Nat) : PageReader κ :=
  match address? raw with
  | none => p
  | some a =>
    let path := String.ofList (Markup.joinWebPathChars p.web.toList a.path)
    p.add .includes (.resource path) offset a.dynamic none

/-- A way to the route at an address. Links to pages do not count. -/
def addRoute (p : PageReader κ) (raw : List Char) (verb : Option String) (offset : Nat) :
    PageReader κ :=
  match address? raw with
  | none => p
  | some a =>
    if endsInAny pageEndings a.path then p
    else
      let path := String.ofList (Route.normalizeChars a.path)
      let note := if a.path.head? = some '/' then none else some "relative"
      p.add .invokes (.route path verb) offset a.dynamic note

def addAll (pat : Pattern) (text : List Char)
    (step : PageReader κ → Text.Match → PageReader κ) (p : PageReader κ) : PageReader κ :=
  (pat.findAll text).foldl step p

def stepInclude (p : PageReader κ) (m : Text.Match) : PageReader κ :=
  match m.piece? 1 with
  | some url => p.addInclude url.text m.whole.offset
  | none => p

def stepRoute (verb : Text.Match → Option String) (p : PageReader κ) (m : Text.Match) :
    PageReader κ :=
  match m.piece? 1 with
  | some url => p.addRoute url.text (verb m) m.whole.offset
  | none => p

/-- The route of a form. Its verb is `GET` unless the form says otherwise. -/
def stepForm (p : PageReader κ) (m : Text.Match) : PageReader κ :=
  let attrs := Markup.attributes (((m.piece? 1).map (·.text)).getD [])
  match attrs["action"]? with
  | some action =>
    let verb := ((attrs["method"]?).map upperString).getD "GET"
    p.addRoute action.toList (some verb) m.whole.offset
  | none => p
where
  upperString (s : String) : String := Text.onString (·.map Char.toUpper) s

def stepNavigation (p : PageReader κ) (m : Text.Match) : PageReader κ :=
  match m.piece? 1 <|> m.piece? 2 with
  | some url => p.addRoute url.text (some "GET") m.whole.offset
  | none => p

def stepRequest (p : PageReader κ) (m : Text.Match) : PageReader κ :=
  let verb :=
    match m.text 1 with
    | "post" => some "POST"
    | "get" | "getJSON" => some "GET"
    | _ => none
  match m.piece? 2 <|> m.piece? 3 with
  | some url => p.addRoute url.text verb m.whole.offset
  | none => p

/-- The number of bytes on each side of an address in which its verb is looked for. -/
def verbDistance : Nat := 200

def verbNear (text : List Char) (m : Text.Match) : Option String := do
  let start := m.whole.offset - verbDistance
  let stop := min (m.stop + verbDistance) (Text.byteSize text)
  let window := ((Text.dropBytes? start text).bind (Text.takeBytes? (stop - start))).getD []
  let verb ← verbOption.find? window
  some (Text.onString (·.map Char.toUpper) (verb.text 1))

end PageReader

def pageFindings (options : Options κ) (path content : String) : FindingSet κ :=
  let file := FilePath.normalize path
  let web := Markup.webPath file
  let kind : NodeKind := if isFragmentPath file then .fragment else .page
  let lines := Text.Lines.of content.toList
  let blank (opening closing : String) := Markup.blankRegions opening.toList closing.toList
  let (text, openServer) := blank "<%--" "--%>" content.toList
  let (text, openComments) := blank "<!--" "-->" text
  let (_, openScripts) := blank "<%" "%>" text
  let report (message : String) (offsets : List Nat) (f : FindingSet κ) :=
    offsets.foldl (fun f offset => f.report (lines.lineOf offset) message) f
  let f := { FindingSet.start path .page with scope := some (Markup.webDir web) }
  let f := f.define
    { kind := kind
      signature := web
      name := Text.onString (Text.afterLast '/') web
      lines := .of 1 lines.count
      attributes := Std.ExtTreeMap.ofList [("file", file)] }
  let f := report "unterminated JSP comment" openServer f
  let f := report "unterminated HTML comment" openComments f
  let f := report "unterminated scriptlet or directive" openScripts f
  let p : PageReader κ := ⟨options, kind, web, lines, f⟩
  let p := p.addAll includeDirective text PageReader.stepInclude
  let p := p.addAll includeTag text PageReader.stepInclude
  let p := p.addAll formTag text PageReader.stepForm
  let p := p.addAll linkTag text (PageReader.stepRoute fun _ => some "GET")
  let p := p.addAll urlTag text (PageReader.stepRoute fun _ => none)
  let p := p.addAll scriptNavigation text PageReader.stepNavigation
  let p := p.addAll scriptRequest text PageReader.stepRequest
  let p := p.addAll urlOption text (PageReader.stepRoute (PageReader.verbNear text))
  p.findings

end AppAtlas.Extract
