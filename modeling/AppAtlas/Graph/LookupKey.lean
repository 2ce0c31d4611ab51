import AppAtlas.Graph.Node
import Std.Data.ExtTreeSet

/-! # Lookup keys

The index of the graph finds concrete nodes by what a reference knows of them: a simple name in
lower case, the stem or the tail of a route, or just a kind. The keys under which a node stands are
read off the node. The keys that were asked for while a file was resolved tell which changes can
make its resolution a different one.
-/

namespace AppAtlas

inductive LookupKey where
  | member (name : String)
  | type (name : String)
  | statement (name : String)
  | page (name : String)
  | route (stem : String)
  | routeTail (tail : String)
  | table (name : String)
  | column (name : String)
  | kind (kind : NodeKind)
deriving DecidableEq, Repr

namespace LookupKey

def sort : LookupKey → String
  | member _ => "member"
  | type _ => "type"
  | statement _ => "statement"
  | page _ => "page"
  | route _ => "route"
  | routeTail _ => "route_tail"
  | table _ => "table"
  | column _ => "column"
  | kind _ => "kind"

def rank : LookupKey → Nat
  | member _ => 0
  | type _ => 1
  | statement _ => 2
  | page _ => 3
  | route _ => 4
  | routeTail _ => 5
  | table _ => 6
  | column _ => 7
  | kind _ => 8

def name : LookupKey → String
  | member s | type s | statement s | page s | route s | routeTail s | table s | column s => s
  | kind _ => ""

/-- The position of the kind in a key; zero when there is none. -/
def kindRank : LookupKey → Nat
  | kind k => k.rank
  | _ => 0

instance : Ord LookupKey :=
  ⟨compareLex (compareOn rank) (compareLex (compareOn name) (compareOn kindRank))⟩

instance : Std.TransOrd LookupKey :=
  inferInstanceAs
    (Std.TransCmp (compareLex (compareOn rank) (compareLex (compareOn name) (compareOn kindRank))))

theorem eq_of_parts {a b : LookupKey} (h : a.rank = b.rank) (hn : a.name = b.name)
    (hk : a.kindRank = b.kindRank) : a = b := by
  cases a <;> cases b <;> simp_all [rank, name, kindRank]
  exact NodeKind.rank_injective hk

instance : Std.LawfulEqOrd LookupKey where
  compare_self := Std.ReflCmp.compare_self
  eq_of_compare {a b} h := by
    change compareLex (compareOn rank) (compareLex (compareOn name) (compareOn kindRank)) a b = .eq at h
    simp only [compareLex_eq_eq, compareOn] at h
    exact eq_of_parts (Std.LawfulEqOrd.eq_of_compare h.1) (Std.LawfulEqOrd.eq_of_compare h.2.1)
      (Std.LawfulEqOrd.eq_of_compare h.2.2)

end LookupKey

abbrev LookupKeys := Std.ExtTreeSet LookupKey compare

def NodeKind.signatureKeys (kind : NodeKind) (signature : String) : List LookupKey :=
  match kind with
  | .page | .fragment => [.page (Text.lowerString (displayName signature))]
  | .controller | .service | .mapper => [.type (Text.lowerString (lastPart signature))]
  | .controllerMethod | .serviceMethod | .mapperMethod =>
    [.member (Text.lowerString (displayName signature))]
  | .statement => [.statement (Text.lowerString (lastPart signature))]
  | .table => [.table (Text.lowerString signature)]
  | .column => [.column (Text.lowerString (lastPart signature))]
  | .stub => []

def Route.keys (route : String) : List LookupKey :=
  [.route (Route.stem route), .routeTail (Route.tail route)]

/-- The keys under which a node stands in the index. Stubs stand under none. -/
def Node.lookupKeys (n : Node) : List LookupKey :=
  if n.isConcrete then
    .kind n.kind :: n.kind.signatureKeys n.signature
      ++ (if n.kind.isMethod then n.routes.flatMap Route.keys else [])
  else []

end AppAtlas
