import AppAtlas.Graph.Basic

/-! # What a file can see

While a file is resolved it sees its own definitions and, behind them, the concrete nodes of the
graph that some other file defines. What only an older version of the same file defined is not seen,
so that a file's own past never matters.

Every search of the index is noted: the keys that were looked up are those on which the resolution
depends.
-/

namespace AppAtlas

structure View (κ : Type) where
  graph : Graph κ
  path : String
  /-- The file's own definitions. -/
  localNodes : Std.ExtTreeMap NodeId Node compare

namespace View

variable {κ : Type}

def sees (v : View κ) (n : Node) : Bool :=
  n.isConcrete && (v.graph.definersOf n.id).any (· != v.path)

def isLocal (v : View κ) (id : NodeId) : Bool := v.localNodes.contains id

def node? (v : View κ) (id : NodeId) : Option Node :=
  match v.localNodes.get? id with
  | some n => if n.isConcrete then some n else none
  | none => (v.graph.node? id).filter v.sees

/-- The visible nodes that stand under a key, by identity. -/
def candidates (v : View κ) (key : LookupKey) : List Node :=
  Node.sorted
    (v.localNodes.values.filter (·.lookupKeys.contains key)
      ++ (v.graph.lookup key).filter fun n => !v.isLocal n.id && v.sees n)

/-- The version of the file's own definitions, newer than any other. -/
def newest : Nat := Nat.pow 2 64 - 1

def introduced (v : View κ) (id : NodeId) : Nat :=
  if v.isLocal id then newest else (v.graph.introduced? id).getD 0

end View

/-- A computation that notes the keys it looks up. -/
abbrev Consulting := StateM LookupKeys

def consult (key : LookupKey) : Consulting Unit := modify (·.insert key)

/-- The visible nodes that stand under a key, the key being noted. -/
def View.lookup {κ : Type} (v : View κ) (key : LookupKey) : Consulting (List Node) := do
  consult key
  pure (v.candidates key)

end AppAtlas
