import AppAtlas.Distinct
import AppAtlas.Graph.Contribution

/-! # The nodes of a file

A file's definitions become nodes. Definitions of one identity, such as methods of one name with
equally many parameters, become one node. Problems of a line become one marker.
-/

namespace AppAtlas

def Definition.node (d : Definition) (path : String) (scope : Option String) : Node where
  id := NodeId.of d.kind d.signature
  kind := d.kind
  file := some path
  lines := d.lines
  signature := d.signature
  name := d.name
  attributes :=
    let inScope := scope.elim d.attributes (d.attributes.insert Node.scopeKey)
    d.owner.elim inScope (inScope.insert Node.ownerKey)

/-- A node with one more definition of it: the lines cover both, attributes it has stay. -/
def Node.absorb (n : Node) (d : Definition) : Node :=
  { n with
    lines := ⟨min n.lines.start d.lines.start, max n.lines.stop d.lines.stop⟩
    attributes := d.attributes.foldl (fun all k v => all.insertIfNew k v) n.attributes }

namespace FindingSet

variable {κ : Type}

def localNodes (f : FindingSet κ) : Std.ExtTreeMap NodeId Node compare :=
  f.definitions.foldl
    (fun nodes d =>
      nodes.alter (NodeId.of d.kind d.signature) fun
        | some n => some (n.absorb d)
        | none => some (d.node f.path f.scope))
    ∅

/-- The markers of a file's problems, one for each line that has any, by line. -/
def markers (f : FindingSet κ) : List Node :=
  (sortedSet (f.issues.map (·.line))).map fun line =>
    let messages := (f.issues.filter (·.line == line)).map (·.message)
    Node.marker f.path line ("; ".intercalate (distinct messages))

def nodes (f : FindingSet κ) : List Node := Node.sorted (f.localNodes.values ++ f.markers)

/-- The contribution of a file's definitions, its references left out. -/
def definitionsOf (f : FindingSet κ) (key : FileKey) : Contribution κ :=
  { key := key, path := f.path, nodes := f.nodes }

end FindingSet

end AppAtlas
