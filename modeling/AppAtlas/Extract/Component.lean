import AppAtlas.Extract.SqlFile
import AppAtlas.Java.Source
import Std.Data.ExtTreeSet

/-! # Java components

Controllers, services and mappers are read in the same way; a `Profile` tells in what they differ.
Each class or interface of a file is defined with its methods. A method refers to what it overrides,
to the methods it calls, as far as their owner can be told, and to the statements it executes: those
named in calls of a SQL session, those bound to it by name or annotation, and those written out in
its body.
-/

namespace AppAtlas.Extract

open Java (Source TypeDecl Method Call Receiver Argument Decoration)

/-- What a family of Java files turns into. -/
structure Profile where
  artifact : ArtifactKind
  typeKind : NodeKind
  methodKind : NodeKind
  /-- The kinds of methods that may be called through a variable, the likeliest first. -/
  callKinds : List NodeKind
  /-- Whether request mappings are read as routes. -/
  hasRoutes : Bool
  /-- Whether methods of interfaces execute the statement of their full name. -/
  bindsStatements : Bool
deriving DecidableEq, Repr

namespace Profile

def controller : Profile where
  artifact := .controller
  typeKind := .controller
  methodKind := .controllerMethod
  callKinds := [.serviceMethod, .mapperMethod, .controllerMethod]
  hasRoutes := true
  bindsStatements := false

def service : Profile where
  artifact := .service
  typeKind := .service
  methodKind := .serviceMethod
  callKinds := [.serviceMethod, .mapperMethod]
  hasRoutes := false
  bindsStatements := false

/-- Mappers: interfaces bound to statements, and classes that reach them through a session. -/
def mapper : Profile where
  artifact := .mapper
  typeKind := .mapper
  methodKind := .mapperMethod
  callKinds := [.mapperMethod]
  hasRoutes := false
  bindsStatements := true

end Profile

/-! ### Request mappings -/

/-- The annotations that map requests, with the verb each stands for. -/
def mappings : List (String × Option String) :=
  [("RequestMapping", none), ("GetMapping", some "GET"), ("PostMapping", some "POST"),
    ("PutMapping", some "PUT"), ("DeleteMapping", some "DELETE"), ("PatchMapping", some "PATCH")]

def named? (annotations : List Decoration) (name : String) : Option Decoration :=
  annotations.find? (·.name == name)

def mapping? (annotations : List Decoration) : Option (List String × List String) :=
  mappings.findSome? fun (name, verb) =>
    (named? annotations name).map fun a =>
      let paths := a.get "value" ++ a.get "path"
      let verbs :=
        match verb with
        | some v => [v]
        | none => (a.get "method").map fun m =>
          Text.onString (fun cs => (Text.afterLast '.' cs).map Char.toUpper) m
      (if paths.isEmpty then [""] else paths, verbs)

def sortedTexts (texts : List String) : List String :=
  (Std.ExtTreeSet.ofList texts compare).toList

def routesOf? (t : TypeDecl) (m : Method) : Option (List String × List String) :=
  (mapping? m.annotations).map fun (paths, verbs) =>
    let leads := ((mapping? t.annotations).map (·.1)).getD [""]
    (sortedTexts (leads.flatMap fun lead => paths.map fun path =>
      Route.normalize (lead ++ "/" ++ path)), verbs)

/-! ### Calls -/

/-- Methods of a SQL session whose first argument names a statement. -/
def statementMethods : List String :=
  ["selectOne", "selectList", "selectMap", "selectCursor", "select", "insert", "update", "delete"]

def holdsText (text needle : String) : Bool :=
  Text.holds needle.toList text.toList

def isSessionCall (t : TypeDecl) (c : Call) : Bool :=
  match c.receiver with
  | .variable name type =>
    type.any (holdsText · "SqlSession") || holdsText (Text.lowerString name) "sqlsession"
  | .expression => true
  | .own =>
    !t.hasMethod c.method c.args.length &&
      t.parents.any fun s => holdsText s "SqlSession" || holdsText s "DaoSupport"
  | _ => false

def knownString? : Argument → Option String
  | .string v => if v.unknown = 0 then some v.text else none
  | _ => none

def calledStatement? (t : TypeDecl) (c : Call) : Option String := do
  if statementMethods.contains c.method && isSessionCall t c then
    filled? (← knownString? (← c.args.head?))
  else none

/-- The method called by its name in a text: `Foo.class.getMethod("bar")` or
`findMethod(Foo.class, "bar")`. -/
def reflectedTarget? (s : Source) (c : Call) : Option Target :=
  let target (owner : Option String) (name : String) : Target :=
    .member ((owner.filter s.isProjectType).map s.resolve) name none
      [.serviceMethod, .mapperMethod, .controllerMethod]
  if c.method == "getMethod" || c.method == "getDeclaredMethod" then
    let owner :=
      match c.receiver with
      | .classOf name => some name
      | _ => none
    (c.args.head?.bind knownString?).map (target owner)
  else if c.method == "findMethod" then
    let owner :=
      match c.args.head? with
      | some (.classOf name) => some name
      | _ => none
    (c.args[1]?.bind knownString?).map (target owner)
  else none

def namesComponent (name : String) : Bool :=
  endsIn ["service", "mapper", "dao", "manager", "repository"]
where
  endsIn (endings : List String) : Bool :=
    endings.any fun e => (Text.stripEnd? e.toList (Text.lower name.toList)).isSome

variable {κ : Type} [Confidence κ]

def callReference? (options : Options κ) (profile : Profile) (s : Source) (t : TypeDecl)
    (source : String) (c : Call) : Option (Reference κ) :=
  let refer (edge : EdgeKind) (target : Target) : Reference κ :=
    .of profile.methodKind source edge target c.line
  let arity := some c.args.length
  match calledStatement? t c, reflectedTarget? s c with
  | some id, _ =>
    some { (refer .executes (.statement id)).withConfidence options.statementCallConfidence with
      note := some ("via " ++ c.method) }
  | none, some target =>
    some { (refer .invokes target).withConfidence options.reflectionConfidence with
      note := some "reflection" }
  | none, none =>
    match c.receiver with
    | .own =>
      if t.hasMethod c.method c.args.length then
        some (refer .invokes
          (.member (some ⟨t.name, [t.fullName]⟩) c.method arity [profile.methodKind]))
      else none
    | .variable _ (some type) =>
      if s.isProjectType type then
        some (refer .invokes (.member (some (s.resolve type)) c.method arity profile.callKinds))
      else none
    | .variable name none =>
      if namesComponent name then
        let r := (refer .invokes (.member none c.method arity profile.callKinds)).withConfidence
          options.unknownReceiverConfidence
        some { r with note := some ("untyped receiver " ++ name) }
      else none
    | _ => none

/-! ### Methods and types -/

def annotationNames? (annotations : List Decoration) : Option String :=
  if annotations.isEmpty then none
  else some (",".intercalate (annotations.map (·.name)))

def methodSignature (t : TypeDecl) (m : Method) : String :=
  AppAtlas.methodSignature t.fullName m.name m.arity

/-- Whether a method executes the statement of its full name. -/
def isBound (profile : Profile) (t : TypeDecl) : Bool :=
  profile.bindsStatements && t.isInterface

def methodDefinition (profile : Profile) (t : TypeDecl) (m : Method) : Definition :=
  let routes := if profile.hasRoutes then routesOf? t m else none
  { kind := profile.methodKind
    signature := methodSignature t m
    name := m.name
    owner := some t.fullName
    lines := m.lines
    attributes := attributesOf
      [("params", some m.paramTypes),
        ("annotations", annotationNames? m.annotations),
        ("routes", routes.map fun (paths, _) => ",".intercalate paths),
        ("http_methods", (routes.filter fun (_, verbs) => !verbs.isEmpty).map fun (_, verbs) =>
          ",".intercalate verbs),
        ("statement_id", if isBound profile t then some (t.fullName ++ "." ++ m.name) else none)] }

def typeDefinition (profile : Profile) (s : Source) (t : TypeDecl) : Definition :=
  let leads := if profile.hasRoutes then (mapping? t.annotations).map (·.1) else none
  { kind := profile.typeKind
    signature := t.fullName
    name := t.name
    lines := t.lines
    attributes := attributesOf
      [("interface", some (boolText t.isInterface)),
        ("package", s.package),
        ("annotations", annotationNames? t.annotations),
        ("route_prefix", leads.map (",".intercalate ·))] }

/-- The statement that an annotation of a method gives: by its text, or by a method that makes it.
The second part is what is wrong with the text. -/
def annotatedStatement? (t : TypeDecl) (m : Method) : Option (Sql.Statement × List String) :=
  let id := t.fullName ++ "." ++ m.name
  let statement (text : String) (variation : Nat) (key value : String) : Sql.Statement :=
    { signature := id, name := m.name, lines := m.lines, text := text, variation := variation
      attributes := Std.ExtTreeMap.ofList [(key, value)] }
  match ["Select", "Insert", "Update", "Delete"].findSome? m.decoration? with
  | some a =>
    let text := " ".intercalate (a.get "value")
    if "<script>".toList.isPrefixOf (text.toList.dropWhile Text.isBlank) then
      let flat := Sql.Template.flatten ∅ text.toList
      some (statement (String.ofList flat.text) flat.variation "source" "annotation",
        flat.faults.map (·.message))
    else some (statement text 0 "source" "annotation", [])
  | none =>
    (["SelectProvider", "InsertProvider", "UpdateProvider", "DeleteProvider"].findSome?
      m.decoration?).map fun a =>
        let owner := ((a.get "type" ++ a.get "value").head?).getD ""
        let owner := Text.onString (Text.stripEndAll ".class".toList) owner
        let maker := ((a.get "method").head?).getD ""
        (statement "" 1 "provider" (owner ++ "." ++ maker), [])

def addBound (options : Options κ) (profile : Profile) (t : TypeDecl) (m : Method)
    (f : FindingSet κ) : FindingSet κ :=
  let id := t.fullName ++ "." ++ m.name
  let f :=
    if f.defines .statement id then f
    else
      match annotatedStatement? t m with
      | some (statement, faults) =>
        statement.addTo options
          (faults.foldl (fun f message => f.report m.lines.start (id ++ ": " ++ message)) f)
      | none => f
  f.refer (.of profile.methodKind (methodSignature t m) .executes (.statement id) m.lines.start)

def overrideReference? (profile : Profile) (s : Source) (t : TypeDecl) (m : Method) :
    Option (Reference κ) :=
  let owners := ((t.interfaces ++ t.parents).filter s.isProjectType).map s.resolve
  match m.decoration? "Override", owners with
  | some _, first :: _ =>
    let owner : TypeRef := ⟨first.name, owners.flatMap (·.candidates)⟩
    let target := .member (some owner) m.name (some m.arity) [profile.methodKind]
    some { Reference.of profile.methodKind (methodSignature t m) .implements target m.lines.start with
      inverted := true }
  | _, _ => none

/-- The findings with a statement written out in a method, the `n`-th of the methods of its name. -/
def addEmbedded (options : Options κ) (profile : Profile) (t : TypeDecl) (m : Method)
    (f : FindingSet κ) (e : Java.EmbeddedSql × Nat) : FindingSet κ :=
  let name := m.name ++ "#sql" ++ toString e.2
  let signature := methodSignature t m
  let statement : Sql.Statement :=
    { signature := t.fullName ++ "." ++ name
      name := name
      lines := e.1.lines
      text := e.1.value.text
      attributes := Std.ExtTreeMap.ofList [("embedded_in", signature)] }
  (statement.addTo options f).refer
    (.of profile.methodKind signature .executes (.statement statement.signature) e.1.lines.start)

/-- The findings with those of a method. `earlier` is the number of statements written out in the
methods of its name before it. -/
def addMethod (options : Options κ) (profile : Profile) (s : Source) (t : TypeDecl) (earlier : Nat)
    (m : Method) (f : FindingSet κ) : FindingSet κ :=
  let f := defineOnce f (methodDefinition profile t m)
  let f := if isBound profile t then addBound options profile t m f else f
  let f := (overrideReference? profile s t m).elim f f.refer
  let f := { f with
    references := f.references ++
      m.calls.filterMap (callReference? options profile s t (methodSignature t m)) }
  (m.sql.zipIdx (earlier + 1)).foldl (addEmbedded options profile t m) f

/-- The findings with those of methods, `before` being the methods already added. -/
def addMethods (options : Options κ) (profile : Profile) (s : Source) (t : TypeDecl)
    (before : List Method) : List Method → FindingSet κ → FindingSet κ
  | [], f => f
  | m :: ms, f =>
    let earlier := ((before.filter (·.name == m.name)).map (·.sql.length)).sum
    addMethods options profile s t (m :: before) ms (addMethod options profile s t earlier m f)

/-- The findings with those of a type. Constructors are left out. -/
def addType (options : Options κ) (profile : Profile) (s : Source) (f : FindingSet κ)
    (t : TypeDecl) : FindingSet κ :=
  let f := f.define (typeDefinition profile s t)
  let supertypes := t.supertypes.filter s.isProjectType
  let f := { f with
    references := f.references ++ supertypes.map fun written =>
      { Reference.of profile.typeKind t.fullName .implements
          (.type (s.resolve written) [profile.typeKind]) t.lines.start with inverted := true } }
  addMethods options profile s t [] (t.methods.filter fun m => !m.isConstructor) f

def sourceFindings (options : Options κ) (profile : Profile) (path : String) (s : Source) :
    FindingSet κ :=
  let f : FindingSet κ := { FindingSet.start path profile.artifact with scope := s.package }
  let f := s.faults.foldl (fun f line => f.report line "syntax error") f
  s.types.foldl (addType options profile s) f

def componentFindings (options : Options κ) (profile : Profile) (path content : String) :
    FindingSet κ :=
  sourceFindings options profile path (Source.parse content)

end AppAtlas.Extract
