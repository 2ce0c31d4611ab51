import AppAtlas.Resolve.Local
import AppAtlas.Resolve.Options
import AppAtlas.Resolve.Search

/-! # The resolver

Resolving a file turns its findings into its contribution. Every reference becomes an edge: to the
best match of its target, or to a stub with the identity the missing definition would have.
Uncertainty is never an error, only a lower confidence.
-/

namespace AppAtlas

/-- The note of a reference that is relative to the page it stands on. -/
def relativeNote : String := "relative"

structure Binding (κ : Type) where
  target : NodeId
  confidence : κ
  /-- The signatures among which the target was chosen. -/
  candidates : List String := []
  /-- The stub to carry for a target that the file does not define. -/
  placeholder : Option Node := none

namespace ResolverOptions

variable {κ : Type} [Confidence κ]

def weight (o : ResolverOptions κ) (m : Matches κ) : κ :=
  match m.rank with
  | .exact => 1.0
  | .name => o.nameWeight
  | .fuzzy => o.fuzzyWeight * m.similarity

/-- Whether one of two nodes is to be taken before the other. -/
def prefers (o : ResolverOptions κ) (v : View κ) (a b : Node) : Bool :=
  let recency :=
    match o.tieBreak with
    | .recency => compare (v.introduced b.id) (v.introduced a.id)
    | .lexical => .eq
  ((recency.then (compare a.signature b.signature)).then (compare a.id b.id)).isLE

def pick? (o : ResolverOptions κ) (v : View κ) : List Node → Option Node
  | [] => none
  | n :: ns => some (ns.foldl (fun best m => if o.prefers v best m then best else m) n)

def bindStub (o : ResolverOptions κ) (r : Reference κ) : Binding κ :=
  let stub := Node.stub r.target.expectedKind r.target.expectedSignature r.target.describe
  { target := stub.id
    confidence := Confidence.min r.confidence o.stubCap
    placeholder := some stub }

def bindNode (v : View κ) (r : Reference κ) (n : Node) (confidence : κ)
    (candidates : List String) : Binding κ where
  target := n.id
  confidence := confidence
  candidates := candidates
  placeholder :=
    if v.isLocal n.id then none else some (Node.stub n.kind n.signature r.target.describe)

/-- The binding of a reference to one of the matches of its target. Matches in the scope of the file
come first; when several are left, one is picked and the confidence is capped. -/
def bindMatches (o : ResolverOptions κ) (v : View κ) (r : Reference κ) (scope : Option String)
    (m : Matches κ) : Binding κ :=
  let confidence := r.confidence * o.weight m
  let inScope := scope.elim [] fun s => m.nodes.filter fun n => n.scope? == some s
  let tied := if inScope.isEmpty then m.nodes else inScope
  match tied with
  | [only] => bindNode v r only confidence []
  | _ =>
    match o.pick? v tied with
    | none => o.bindStub r
    | some winner =>
      bindNode v r winner (Confidence.min confidence o.ambiguityCap)
        (sortedSet (m.nodes.map (·.signature)))

def bind (o : ResolverOptions κ) (v : View κ) (scope : Option String) (r : Reference κ) :
    Consulting (Binding κ) := do
  let search : Search κ :=
    { view := v, exclude := NodeId.of r.fromKind r.source, minSimilarity := o.minSimilarity }
  match ← search.find r.target (r.note == some relativeNote) with
  | some m => pure (o.bindMatches v r scope m)
  | none => pure (o.bindStub r)

end ResolverOptions

structure Gathered (κ : Type) where
  edges : Std.ExtTreeMap EdgeId (Edge κ) compare := ∅
  placeholders : Std.ExtTreeMap NodeId Node compare := ∅

namespace Gathered

variable {κ : Type} [Confidence κ]

def edgeOf (path : String) (r : Reference κ) (b : Binding κ) : Edge κ :=
  let source := NodeId.of r.fromKind r.source
  let evidence : Evidence :=
    { file := path, line := r.line, note := r.note, candidates := b.candidates }
  if r.inverted then Edge.of b.target source r.edge b.confidence evidence
  else Edge.of source b.target r.edge b.confidence evidence

def addEdge (g : Gathered κ) (e : Edge κ) : Gathered κ :=
  { g with
    edges := g.edges.alter e.id fun
      | some held => some (held.merge e)
      | none => some e }

/-- The gathered things with a placeholder, unless there is one of its identity. -/
def addPlaceholder (g : Gathered κ) (n : Node) : Gathered κ :=
  { g with placeholders := g.placeholders.insertIfNew n.id n }

/-- The gathered things with the placeholders that a bound reference needs. A referring definition
that the file does not have gets one. -/
def withEnds (g : Gathered κ) (v : View κ) (r : Reference κ) (b : Binding κ) : Gathered κ :=
  let withSource :=
    if v.isLocal (NodeId.of r.fromKind r.source) then g
    else g.addPlaceholder (Node.stub r.fromKind r.source r.source)
  b.placeholder.elim withSource withSource.addPlaceholder

def add (g : Gathered κ) (v : View κ) (r : Reference κ) (b : Binding κ) : Gathered κ :=
  (g.withEnds v r b).addEdge (edgeOf v.path r b)

end Gathered

namespace ResolverOptions

variable {κ : Type} [Confidence κ]

/-- All references of a file, bound one after the other. -/
def gather (o : ResolverOptions κ) (v : View κ) (scope : Option String)
    (references : List (Reference κ)) : Consulting (Gathered κ) :=
  references.foldlM (fun g r => return g.add v r (← o.bind v scope r)) {}

def resolve (o : ResolverOptions κ) (key : FileKey) (f : FindingSet κ) (g : Graph κ) :
    Contribution κ :=
  let view : View κ := { graph := g, path := f.path, localNodes := f.localNodes }
  let (gathered, lookups) := (o.gather view f.scope f.references).run ∅
  { key := key
    path := f.path
    nodes := f.nodes
    edges := gathered.edges.values
    placeholders := gathered.placeholders.values
    lookups := lookups }

end ResolverOptions

end AppAtlas
