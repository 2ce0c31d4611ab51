import AppAtlas.Distinct
import AppAtlas.Finding
import AppAtlas.Java.Declaration
import AppAtlas.Sql.Statement

/-! # What a Java file says

A Java file as far as dependencies go: its package and imports, its classes and interfaces, and of
each method the calls it makes and the strings in it that look like SQL. Strings put together with
`+` are one string; operands whose value is not known stand in it as substitutions `${name}`.
-/

namespace AppAtlas.Java

abbrev Names := Std.ExtTreeMap String String compare

structure StringValue where
  text : String
  /-- The number of substitutions put in for unknown operands. -/
  unknown : Nat
deriving DecidableEq, Repr, Inhabited

structure Decoration where
  name : String
  /-- The values of each element; an element without name is called `value`. -/
  values : Std.ExtTreeMap String (List String) compare
deriving DecidableEq

def Decoration.get (a : Decoration) (key : String) : List String :=
  (a.values[key]?).getD []

inductive Receiver where
  | own
  /-- A variable, with its declared type if there is one in view. -/
  | variable (name : String) (type : Option String)
  | type (name : String)
  | classOf (name : String)
  | expression
deriving DecidableEq, Repr

inductive Argument where
  | string (value : StringValue)
  | classOf (name : String)
  | other
deriving DecidableEq, Repr

structure Call where
  receiver : Receiver
  method : String
  args : List Argument
  line : Nat
deriving DecidableEq, Repr

structure EmbeddedSql where
  value : StringValue
  lines : LineRange
deriving DecidableEq, Repr

structure Method where
  name : String
  params : List Param
  annotations : List Decoration
  isConstructor : Bool
  lines : LineRange
  calls : List Call
  sql : List EmbeddedSql
deriving DecidableEq

namespace Method

def arity (m : Method) : Nat := m.params.length

def decoration? (m : Method) (name : String) : Option Decoration :=
  m.annotations.find? (·.name == name)

def paramTypes (m : Method) : String :=
  String.intercalate "," (m.params.map (·.type))

end Method

structure TypeDecl where
  name : String
  fullName : String
  isInterface : Bool
  annotations : List Decoration
  parents : List String
  interfaces : List String
  fields : Names
  /-- Strings that never change and whose value is known. -/
  constants : Names
  methods : List Method
  lines : LineRange
deriving DecidableEq

namespace TypeDecl

def decoration? (t : TypeDecl) (name : String) : Option Decoration :=
  t.annotations.find? (·.name == name)

def hasMethod (t : TypeDecl) (name : String) (arity : Nat) : Bool :=
  t.methods.any fun m => !m.isConstructor && m.name == name && m.params.length == arity

/-- All types it is declared to extend or implement. -/
def supertypes (t : TypeDecl) : List String :=
  t.parents ++ t.interfaces

end TypeDecl

structure Source where
  package : Option String := none
  imports : List String := []
  /-- Packages of which all is imported. -/
  wildcards : List String := []
  types : List TypeDecl := []
  /-- The lines on which something is wrong. -/
  faults : List Nat := []
deriving DecidableEq

/-! ### Strings -/

def withoutQuotes (literal : List Char) : List Char :=
  let between (quotes : List Char) : Option (List Char) :=
    (quotes.isPrefixOf? literal).bind (Text.stripEnd? quotes)
  ((between ['"', '"', '"']).orElse fun _ => between ['"']).getD literal

/-- A text with its escapes replaced: line feed, tab, carriage return, and any other character by
itself. -/
def unescape : List Char → List Char
  | [] => []
  | '\\' :: c :: cs =>
    (if c = 'n' then '\n' else if c = 't' then '\t' else if c = 'r' then '\r' else c) :: unescape cs
  | c :: cs => c :: unescape cs

def unquote (literal : List Char) : List Char :=
  unescape (withoutQuotes literal)

/-- The name of the substitution for an unknown operand: letters, digits, lines and dots of its
text, at most forty. -/
def substitutionName (text : List Char) : List Char :=
  (text.filter fun c => c.isAlphanum || c == '_' || c == '.').take 40

section

variable (source : List Char)

def stringOf (t : Tree) : String :=
  String.ofList (t.text source)

mutual
/-- The value of a string, or of a sum of strings and other operands. -/
def stringValue (constants : Names) : Tree → StringValue
  | .node form span parts =>
    match form with
    | .text => ⟨String.ofList (unquote (Tree.textOf source span)), 0⟩
    | .binary "+" => stringValues constants parts
    | .parenthesized => firstValue constants parts
    | .literal => ⟨String.ofList (Tree.textOf source span), 0⟩
    | _ =>
      let text := Tree.textOf source span
      let known := if form = .identifier then constants[String.ofList text]? else none
      match known with
      | some value => ⟨value, 0⟩
      | none => ⟨String.ofList ('$' :: '\x7b' :: substitutionName text ++ ['\x7d']), 1⟩
def stringValues (constants : Names) : List Tree → StringValue
  | [] => ⟨"", 0⟩
  | t :: ts =>
    let a := stringValue constants t
    let b := stringValues constants ts
    ⟨a.text ++ b.text, a.unknown + b.unknown⟩
def firstValue (constants : Names) : List Tree → StringValue
  | [] => ⟨"", 0⟩
  | t :: _ => stringValue constants t
end

mutual
def hasText : Tree → Bool
  | .node form _ parts =>
    match form with
    | .text => true
    | .binary _ | .parenthesized => anyHasText parts
    | _ => false
/-- Whether a string is among the operands of some expressions. -/
def anyHasText : List Tree → Bool
  | [] => false
  | t :: ts => hasText t || anyHasText ts
end

mutual
def embeddedSql (constants : Names) : Tree → List EmbeddedSql
  | .node form span parts =>
    let tree : Tree := .node form span parts
    if form == .text || (form == .binary "+" && hasText tree) then
      let value := stringValue source constants tree
      if Sql.looksLikeSql value.text then [⟨value, .of span.firstLine span.lastLine⟩] else []
    else embeddedSqls constants parts
/-- The strings in some trees that look like SQL. -/
def embeddedSqls (constants : Names) : List Tree → List EmbeddedSql
  | [] => []
  | t :: ts => embeddedSql constants t ++ embeddedSqls constants ts
end

/-! ### Annotations -/

mutual
def elementValues : Tree → List String
  | .node form span parts =>
    let tree : Tree := .node form span parts
    match form with
    | .elements => allElementValues parts
    | .text | .binary _ => [(stringValue source ∅ tree).text]
    | _ => [stringOf source tree]
def allElementValues : List Tree → List String
  | [] => []
  | t :: ts => elementValues t ++ allElementValues ts
end

def addValues (values : Std.ExtTreeMap String (List String) compare) (key : String)
    (more : List String) : Std.ExtTreeMap String (List String) compare :=
  values.insert key ((values[key]?).getD [] ++ more)

def decorationOf? (t : Tree) : Option Decoration :=
  match t.form with
  | .decoration name =>
    some ⟨name, t.parts.foldl (fun values part =>
      match part.form with
      | .pair key => addValues values key (allElementValues source part.parts)
      | _ => addValues values "value" (elementValues source part)) ∅⟩
  | _ => none

def modifiersOf? (t : Tree) : Option Tree :=
  t.parts.find? (·.form == .modifiers)

def annotationsOf (t : Tree) : List Decoration :=
  match modifiersOf? t with
  | some mods => mods.parts.filterMap (decorationOf? source)
  | none => []

/-! ### Calls -/

/-- The variables in view of a method body: parameters and local variables, wherever they are
declared. A later one hides an earlier one of its name. -/
def localTypes (params : List Param) (body : Tree) : Names :=
  let ofParams : Names := Std.ExtTreeMap.ofList (params.map fun p => (p.name, p.type))
  body.preorder.foldl (fun names t =>
    match t.form with
    | .loop type name => names.insert name (baseTypeName type)
    | .locals type =>
      t.parts.foldl (fun names part =>
        match part.form with
        | .declarator name => names.insert name (baseTypeName type)
        | _ => names) names
    | _ => names) ofParams

def startsCapital (name : String) : Bool :=
  name.toList.head?.any Char.isUpper

def receiverOf (fields locals : Names) (object : Tree) : Receiver :=
  match object.form with
  | .this => .own
  | .identifier =>
    let name := stringOf source object
    match (locals[name]?).orElse fun _ => fields[name]? with
    | some type => .variable name (some type)
    | none => if startsCapital name then .type name else .variable name none
  | .member field =>
    if object.parts.head?.any (·.form == .this) then .variable field fields[field]?
    else .expression
  | .classOf type => .classOf (baseTypeName type)
  | _ => .expression

def argumentOf (constants : Names) (t : Tree) : Argument :=
  match t.form with
  | .classOf type => .classOf (baseTypeName type)
  | .text => .string (stringValue source constants t)
  | .binary _ =>
    let value := stringValue source constants t
    if value.unknown > 0 && !hasText t then .other else .string value
  | .identifier =>
    match constants[stringOf source t]? with
    | some text => .string ⟨text, 0⟩
    | none => .other
  | _ => .other

def callOf? (fields constants locals : Names) (t : Tree) : Option Call :=
  match t.form, t.parts with
  | .call name true, object :: args :: _ =>
    some ⟨receiverOf source fields locals object, name,
      args.parts.map (argumentOf source constants), t.span.firstLine⟩
  | .call name false, args :: _ =>
    some ⟨.own, name, args.parts.map (argumentOf source constants), t.span.firstLine⟩
  | _, _ => none

/-! ### Declarations -/

structure Fields where
  types : Names := ∅
  constants : Names := ∅

/-- The fields with one declaration added. A string that is declared in an interface, or is static
and final, and whose value is known, is a constant. -/
def addField (known : Fields) (t : Tree) : Fields :=
  match t.form with
  | .field type isConstant =>
    let type := baseTypeName type
    let mods := ((modifiersOf? t).map (·.text source)).getD []
    let isFixed := isConstant ||
      (Text.holds "static".toList mods && Text.holds "final".toList mods)
    t.parts.foldl (fun known part =>
      match part.form with
      | .declarator name =>
        let constants :=
          match part.parts.head? with
          | some value =>
            let v := stringValue source known.constants value
            if isFixed && type == "String" && v.unknown == 0 then known.constants.insert name v.text
            else known.constants
          | none => known.constants
        ⟨known.types.insert name type, constants⟩
      | _ => known) known
  | _ => known

def methodOf? (fields : Fields) (t : Tree) : Option Method :=
  match t.form with
  | .method isConstructor name params =>
    let body := t.parts.find? (·.form == .block)
    let locals := (body.map (localTypes params)).getD ∅
    some
      { name := name
        params := params
        annotations := annotationsOf source t
        isConstructor := isConstructor
        lines := .of t.span.firstLine t.span.lastLine
        calls := body.toList.flatMap fun b =>
          b.preorder.filterMap (callOf? source fields.types fields.constants locals)
        sql := body.toList.flatMap (embeddedSql source fields.constants) }
  | _ => none

mutual
def typesOf (outer : Option String) : Tree → List TypeDecl
  | .node form span parts =>
    match form with
    | .type isInterface name parents interfaces =>
      let tree : Tree := .node form span parts
      let fullName :=
        match outer with
        | some o => if o.isEmpty then name else o ++ "." ++ name
        | none => name
      let members := (parts.find? (·.form == .block)).toList.flatMap (·.parts)
      let fields := members.foldl (addField source) {}
      { name := name
        fullName := fullName
        isInterface := isInterface
        annotations := annotationsOf source tree
        parents := parents
        interfaces := interfaces
        fields := fields.types
        constants := fields.constants
        methods := members.filterMap (methodOf? source fields)
        lines := .of span.firstLine span.lastLine } :: nestedTypes fullName parts
    | _ => []
def nestedTypes (outer : String) : List Tree → List TypeDecl
  | [] => []
  | .node form _ parts :: ts =>
    (if form = .block then allTypes (some outer) parts else []) ++ nestedTypes outer ts
def allTypes (outer : Option String) : List Tree → List TypeDecl
  | [] => []
  | t :: ts => typesOf outer t ++ allTypes outer ts
end

end

/-! ### Files -/

def Source.parse (text : String) : Source :=
  let source := text.toList
  match Java.parse source with
  | (none, faults) => { faults := faults }
  | (some tree, faults) =>
    let package := (tree.parts.filterMap fun t =>
      match t.form with
      | .package name => some name
      | _ => none).getLast?
    let importing (all : Bool) := tree.parts.filterMap fun t =>
      match t.form with
      | .importing name ofAll isStatic => if ofAll == all && !isStatic then some name else none
      | _ => none
    { package := package
      imports := importing false
      wildcards := importing true
      types := allTypes source package tree.parts
      faults := distinct faults }

/-! ### Names of types in a file -/

def libraryTypes : List String :=
  ["Object", "String", "StringBuilder", "StringBuffer", "Integer", "Long", "Short", "Byte",
    "Double", "Float", "Boolean", "Character", "Number", "BigDecimal", "BigInteger", "Math",
    "System", "Thread", "Class", "Enum", "Iterable", "Runnable", "Exception",
    "RuntimeException", "Throwable", "Error", "List", "ArrayList", "LinkedList", "Map",
    "HashMap", "LinkedHashMap", "TreeMap", "Set", "HashSet", "TreeSet", "Collection",
    "Collections", "Arrays", "Objects", "Optional", "Stream", "Collectors", "Date",
    "LocalDate", "LocalDateTime", "Instant", "Duration", "UUID", "Iterator", "Comparable",
    "Comparator", "Serializable", "Cloneable", "AutoCloseable", "Override", "Deprecated",
    "SqlSession", "SqlSessionTemplate", "SqlSessionDaoSupport", "JdbcTemplate",
    "NamedParameterJdbcTemplate", "JdbcDaoSupport", "HibernateDaoSupport", "Model", "ModelMap",
    "HttpServletRequest", "HttpServletResponse", "HttpSession"]

/-- Packages of the language and of well-known frameworks. -/
def libraryPackages : List String :=
  ["java.", "javax.", "jakarta.", "org.springframework.", "org.apache.", "org.mybatis.",
    "org.slf4j.", "org.hibernate.", "com.fasterxml.", "com.google.", "com.baomidou.", "lombok."]

def isLibraryName (name : String) : Bool :=
  libraryPackages.any fun p => p.toList.isPrefixOf name.toList

def simpleName (name : String) : String :=
  Text.onString (Text.afterLast '.') name

namespace Source

def importOf? (s : Source) (simple : String) : Option String :=
  s.imports.find? fun i => simpleName i == simple

/-- The full names a written type may have. A name with package is taken as it is. Else the types of
the file and its imports count; if there are none, the file's own package and those it imports all
of. -/
def resolve (s : Source) (written : String) : TypeRef :=
  let name := baseTypeName written
  let simple := simpleName name
  if name.toList.contains '.' && name.toList.head?.any Char.isLower then ⟨simple, [name]⟩
  else
    let here := ((s.types.find? (·.name == simple)).map (·.fullName)).toList
    let imported := (s.importOf? simple).toList
    match here ++ imported with
    | [] =>
      let own :=
        match s.package with
        | some p => p ++ "." ++ simple
        | none => simple
      ⟨simple, withoutRepeats (own :: s.wildcards.map (· ++ "." ++ simple))⟩
    | found => ⟨simple, withoutRepeats found⟩
where
  /-- A list without entries equal to the one before. -/
  withoutRepeats : List String → List String
    | a :: b :: rest => if a = b then withoutRepeats (b :: rest) else a :: withoutRepeats (b :: rest)
    | as => as

def isProjectType (s : Source) (written : String) : Bool :=
  let name := baseTypeName written
  let simple := simpleName name
  if primitives.contains name || name == "var" || !startsCapital simple || isLibraryName name then
    false
  else
    match s.importOf? simple with
    | some i => !isLibraryName i
    | none => s.types.any (·.name == simple) || !libraryTypes.contains simple

end Source

end AppAtlas.Java
