import AppAtlas.Text.Blank

/-! # Kinds

The kinds of things in a layered application, the kinds of dependencies between them, and the kinds
of files they are read from. Each kind has one spelling. Kinds are ordered as they are listed here;
counts and sets of kinds come out in that order.
-/

namespace AppAtlas

inductive NodeKind where
  | page
  /-- A page fragment that exists to be included by pages. -/
  | fragment
  | controller
  | controllerMethod
  | service
  | serviceMethod
  /-- A data-access interface or class. -/
  | mapper
  | mapperMethod
  | statement
  | table
  | column
  /-- A placeholder for something not seen yet, or a marker of a parse problem. -/
  | stub
deriving DecidableEq, Repr, Inhabited

namespace NodeKind

def all : List NodeKind :=
  [page, fragment, controller, controllerMethod, service, serviceMethod, mapper, mapperMethod,
    statement, table, column, stub]

def name : NodeKind → String
  | page => "Page"
  | fragment => "Include"
  | controller => "Controller"
  | controllerMethod => "ControllerMethod"
  | service => "Service"
  | serviceMethod => "ServiceMethod"
  | mapper => "MapperInterface"
  | mapperMethod => "MapperMethod"
  | statement => "SqlStatement"
  | table => "Table"
  | column => "Column"
  | stub => "StubUnresolved"

def rank : NodeKind → Nat
  | page => 0
  | fragment => 1
  | controller => 2
  | controllerMethod => 3
  | service => 4
  | serviceMethod => 5
  | mapper => 6
  | mapperMethod => 7
  | statement => 8
  | table => 9
  | column => 10
  | stub => 11

theorem rank_injective {a b : NodeKind} (h : a.rank = b.rank) : a = b := by
  cases a <;> cases b <;> first | rfl | simp [rank] at h

def ofName? (s : String) : Option NodeKind :=
  all.find? fun k => k.name == s

theorem ofName?_name (k : NodeKind) : ofName? k.name = some k := by
  cases k <;> decide

/-- The node kind of a spelling in letters of either case, white space around it ignored. -/
def parse? (s : String) : Option NodeKind :=
  all.find? fun k => Text.sameLetters k.name.toList (Text.trim s.toList)

theorem parse?_name (k : NodeKind) : parse? k.name = some k := by
  cases k <;> decide

/-- The namespace in which a kind's signatures are identities. Kinds that can name the same thing
share one: a class is the same class whether it is taken for a controller or a service. -/
def space : NodeKind → String
  | page | fragment => "page"
  | controller | service | mapper => "type"
  | controllerMethod | serviceMethod | mapperMethod => "method"
  | statement => "sql"
  | table => "table"
  | column => "column"
  | stub => "marker"

def isType : NodeKind → Bool
  | controller | service | mapper => true
  | _ => false

def isMethod : NodeKind → Bool
  | controllerMethod | serviceMethod | mapperMethod => true
  | _ => false

end NodeKind

/-- The kinds of edges. An edge says that its source depends on its target. -/
inductive EdgeKind where
  /-- A page includes a page or fragment. -/
  | includes
  | invokes
  /-- An abstract type or member is realised by another. -/
  | implements
  | executes
  | reads
  | writes
  | mentions
deriving DecidableEq, Repr, Inhabited

namespace EdgeKind

def all : List EdgeKind :=
  [includes, invokes, implements, executes, reads, writes, mentions]

def name : EdgeKind → String
  | includes => "Includes"
  | invokes => "Invokes"
  | implements => "Implements"
  | executes => "ExecutesSql"
  | reads => "ReadsTable"
  | writes => "WritesTable"
  | mentions => "ReferencesColumn"

def rank : EdgeKind → Nat
  | includes => 0
  | invokes => 1
  | implements => 2
  | executes => 3
  | reads => 4
  | writes => 5
  | mentions => 6

instance : Ord EdgeKind := ⟨compareOn rank⟩

instance : Std.TransOrd EdgeKind := inferInstanceAs (Std.TransCmp (compareOn rank))

instance : Std.LawfulEqOrd EdgeKind where
  compare_self := Std.ReflCmp.compare_self
  eq_of_compare {a b} h := by
    have h : a.rank = b.rank := Std.LawfulEqOrd.eq_of_compare h
    cases a <;> cases b <;> first | rfl | simp [rank] at h

def ofName? (s : String) : Option EdgeKind :=
  all.find? fun k => k.name == s

theorem ofName?_name (k : EdgeKind) : ofName? k.name = some k := by
  cases k <;> decide

/-- The edge kind of a spelling in letters of either case, white space around it ignored. -/
def parse? (s : String) : Option EdgeKind :=
  all.find? fun k => Text.sameLetters k.name.toList (Text.trim s.toList)

theorem parse?_name (k : EdgeKind) : parse? k.name = some k := by
  cases k <;> decide

end EdgeKind

inductive ArtifactKind where
  | page
  | controller
  | service
  | mapper
  | sql
  | schema
deriving DecidableEq, Repr, Inhabited

namespace ArtifactKind

def all : List ArtifactKind :=
  [page, controller, service, mapper, sql, schema]

def name : ArtifactKind → String
  | page => "page"
  | controller => "controller"
  | service => "service"
  | mapper => "mapper"
  | sql => "sql"
  | schema => "schema"

def ofName? (s : String) : Option ArtifactKind :=
  all.find? fun k => k.name == s

end ArtifactKind

end AppAtlas
