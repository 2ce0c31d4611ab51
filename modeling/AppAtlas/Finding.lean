import AppAtlas.Confidence
import AppAtlas.FilePath
import AppAtlas.Kind
import AppAtlas.Route
import Std.Data.ExtTreeMap

/-! # Findings

What is learned from one file: the things it defines, the things it refers to, and the problems met
while reading it. A reference names its target symbolically, because only the other files tell what
it is; `Target` lists the ways of naming.
-/

namespace AppAtlas

abbrev Attributes := Std.ExtTreeMap String String compare

/-- A range of lines, counted from one, both ends included. -/
structure LineRange where
  start : Nat
  stop : Nat
deriving DecidableEq, Repr, Inhabited

namespace LineRange

/-- The range between two lines; it never ends before it starts. -/
def of (start stop : Nat) : LineRange := ⟨start, max stop start⟩

def line (n : Nat) : LineRange := of n n

end LineRange

/-- The signature of a method: its owner, its name and the number of its parameters. -/
def methodSignature (owner member : String) (arity : Nat) : String :=
  owner ++ "." ++ member ++ "/" ++ toString arity

/-- A type as it is written, with the full names it may have, likeliest first. -/
structure TypeRef where
  name : String
  candidates : List String
deriving DecidableEq, Repr, Inhabited

namespace TypeRef

def simpleName (t : TypeRef) : String := Text.onString (Text.afterLast '.') t.name

/-- The likeliest full name, or else the name as written. -/
def primary (t : TypeRef) : String := t.candidates.headD t.name

end TypeRef

inductive Target where
  /-- A method of some type; the number of its parameters may be unknown. -/
  | member (owner : Option TypeRef) (member : String) (arity : Option Nat) (kinds : List NodeKind)
  | type (type : TypeRef) (kinds : List NodeKind)
  | route (path : String) (verb : Option String)
  | resource (path : String)
  | statement (id : String)
  | table (name : String)
  /-- A table whose name is known only in part. -/
  | tablePattern (pattern : String)
  | column (table : Option String) (name : String) (candidates : List String)
deriving DecidableEq, Repr

def isFragmentPath (path : String) : Bool :=
  let chars := Text.lower path.toList
  [".jspf", ".inc", ".tag", ".tagx"].any fun ext => (Text.stripEnd? ext.toList chars).isSome

namespace Target

def expectedKind : Target → NodeKind
  | member _ _ _ kinds => kinds.headD .stub
  | type _ kinds => kinds.headD .stub
  | route _ _ => .controllerMethod
  | resource path => if isFragmentPath path then .fragment else .page
  | statement _ => .statement
  | table _ => .table
  | tablePattern _ => .table
  | column _ _ _ => .column

def describe : Target → String
  | member owner name arity _ =>
    let base := (owner.map (·.name)).getD "?" ++ "." ++ name
    match arity with
    | some n => base ++ "/" ++ toString n
    | none => base
  | type t _ => t.name
  | route path verb =>
    match verb with
    | some v => v ++ " " ++ path
    | none => path
  | resource path => path
  | statement id => id
  | table name => name
  | tablePattern pattern => pattern
  | column owner name _ =>
    match owner with
    | some t => t ++ "." ++ name
    | none => name

end Target

/-- Something a file defines. Kind and signature are its identity. -/
structure Definition where
  kind : NodeKind
  signature : String
  name : String
  /-- The signature of the definition around it. -/
  owner : Option String := none
  lines : LineRange
  attributes : Attributes := ∅
deriving DecidableEq

structure Reference (κ : Type) where
  fromKind : NodeKind
  source : String
  edge : EdgeKind
  target : Target
  line : Nat
  /-- How certain the reference itself is. -/
  confidence : κ
  /-- Whether the edge points from the target to the referring definition. -/
  inverted : Bool := false
  note : Option String := none
deriving DecidableEq

def Reference.of {κ : Type} [Confidence κ] (fromKind : NodeKind) (source : String) (edge : EdgeKind)
    (target : Target) (line : Nat) : Reference κ :=
  { fromKind := fromKind, source := source, edge := edge, target := target, line := line,
    confidence := 1.0 }

/-- A reference given a confidence, moved between the least one and one. -/
def Reference.withConfidence {κ : Type} [Confidence κ] (r : Reference κ) (c : κ) : Reference κ :=
  { r with confidence := Confidence.clamp c Confidence.least 1.0 }

/-- A problem met while reading a file. -/
structure Issue where
  line : Nat
  message : String
deriving DecidableEq, Repr

structure FindingSet (κ : Type) where
  path : String
  artifact : ArtifactKind
  /-- The package or web directory of the file. -/
  scope : Option String := none
  definitions : List Definition := []
  references : List (Reference κ) := []
  issues : List Issue := []
deriving DecidableEq

namespace FindingSet

variable {κ : Type}

def start (path : String) (artifact : ArtifactKind) : FindingSet κ :=
  { path := FilePath.normalize path, artifact := artifact }

def define (f : FindingSet κ) (d : Definition) : FindingSet κ :=
  { f with definitions := f.definitions ++ [d] }

def refer (f : FindingSet κ) (r : Reference κ) : FindingSet κ :=
  { f with references := f.references ++ [r] }

def report (f : FindingSet κ) (line : Nat) (message : String) : FindingSet κ :=
  { f with issues := f.issues ++ [⟨line, message⟩] }

def defines (f : FindingSet κ) (kind : NodeKind) (signature : String) : Bool :=
  f.definitions.any fun d => d.kind == kind && d.signature == signature

end FindingSet

end AppAtlas
