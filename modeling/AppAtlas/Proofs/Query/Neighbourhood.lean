import AppAtlas.Proofs.Query.Walks
import AppAtlas.Query.Subgraph

/-!
# Neighbourhoods

The part of a graph around some nodes is found by one search from all of them at once, which stops
after a number of hops.  The search is bounded by the number of edges too, and that bound takes
nothing away: a walk can be shortened to one that follows no edge twice.  Nodes of unwanted kinds
are left out only after the search, so walks lead through them.  Edges are taken for their two ends
alone, whether or not a walk followed them.

* `Reaches.iff_exists_start`: a search from some nodes reaches what one from each of them reaches.
* `Subgraph.Induces`: the wanted nodes that are near, and all admitted edges between them.
* `neighbourhood_induced_or_first_missing`: what the part around some nodes is.
-/

namespace AppAtlas

open List OrderedMap
open Std (ExtTreeMap ExtTreeSet)

variable {κ : Type}

theorem Reaches.iff_exists_start {next : NodeId → List NodeId} {starts : List NodeId} {d : Nat}
    {v : NodeId} : Reaches next starts d v ↔ ∃ a ∈ starts, Reaches next [a] d v := by
  constructor
  · intro h
    induction h with
    | @start v hv => exact ⟨v, hv, .start (mem_singleton_self v)⟩
    | hop _ hv ih =>
      obtain ⟨a, ha, hu⟩ := ih
      exact ⟨a, ha, .hop hu hv⟩
  · rintro ⟨a, ha, h⟩
    induction h with
    | start hv =>
      obtain rfl := mem_singleton.mp hv
      exact .start ha
    | hop _ hv ih => exact .hop ih hv

section

variable [Confidence κ]

/-- **The edges that a filter opens**: of the kinds it lists, if it has a list, and not below its
floor. -/
def EdgeFilter.Opens (f : EdgeFilter κ) (e : Edge κ) : Prop :=
  (∀ kinds : List EdgeKind, f.kinds = some kinds → e.kind ∈ kinds) ∧ f.minConfidence ≤ e.confidence

theorem EdgeFilter.admits_iff_opens {f : EdgeFilter κ} {e : Edge κ} : f.admits e ↔ f.Opens e := by
  rw [admits, allowsKind, Bool.and_eq_true, decide_eq_true_iff, Opens]
  cases f.kinds with
  | none => simp
  | some kinds => simp

namespace Subgraph

/-- **A node is near some nodes**: from one of them a walk within the depth leads to it. -/
def Near (g : Graph κ) (o : SubgraphOptions κ) (seeds : List NodeId) (id : NodeId) : Prop :=
  ∃ seed ∈ seeds, ∃ es : List (Edge κ),
    Walk (g.Hop o.direction o.edges.Opens) seed es id ∧ es.length ≤ o.depth

def Wanted (o : SubgraphOptions κ) (n : Node) : Prop :=
  ∀ kinds : List NodeKind, o.kinds = some kinds → n.kind ∈ kinds

/-- **The part that some nodes induce**: the nodes near them that are wanted, and the edges that are
opened and have both ends among these, each in the order of identities. -/
structure Induces (g : Graph κ) (o : SubgraphOptions κ) (seeds : List NodeId) (part : Subgraph κ) :
    Prop where
  nodes : ∀ n : Node, n ∈ part.nodes ↔
    g.node? n.id = some n ∧ Near g o seeds n.id ∧ Wanted o n
  edges : ∀ e : Edge κ, e ∈ part.edges ↔
    g.edge? e.id = some e ∧ o.edges.Opens e ∧
      (∃ a ∈ part.nodes, a.id = e.source) ∧ ∃ b ∈ part.nodes, b.id = e.target
  nodesAscend : part.nodes.Pairwise fun a b => compare a.id b.id = .lt
  edgesAscend : part.edges.Pairwise fun a b => compare a.id b.id = .lt

variable {g : Graph κ} {o : SubgraphOptions κ} {seeds : List NodeId} {id : NodeId}

def next (g : Graph κ) (o : SubgraphOptions κ) (id : NodeId) : List NodeId :=
  (g.neighbours o.direction o.edges id).map (·.1)

theorem mem_next (hg : g.Weighed) {u v : NodeId} :
    v ∈ next g o u ↔ ∃ e, g.Hop o.direction o.edges.Opens u e v := by
  rw [next, mem_map]
  have hhop : ∀ e, (v, e) ∈ g.neighbours o.direction o.edges u ↔
      g.Hop o.direction o.edges.Opens u e v := by
    intro e
    rw [hg.mem_neighbours]
    exact ⟨fun h => ⟨h.edge, EdgeFilter.admits_iff_opens.mp h.admits, h.leads⟩,
      fun h => ⟨h.edge, EdgeFilter.admits_iff_opens.mpr h.admits, h.leads⟩⟩
  constructor
  · rintro ⟨⟨_, e⟩, hmem, rfl⟩
    exact ⟨e, (hhop e).mp hmem⟩
  · rintro ⟨e, he⟩
    exact ⟨(v, e), (hhop e).mpr he, rfl⟩

theorem reaches_next_iff (hg : g.Weighed) {d : Nat} :
    Reaches (next g o) seeds d id ↔ ∃ seed ∈ seeds, ∃ es : List (Edge κ),
      Walk (g.Hop o.direction o.edges.Opens) seed es id ∧ es.length = d := by
  rw [Reaches.iff_exists_start]
  exact exists_congr fun seed => and_congr_right fun _ => Walk.reaches_iff fun _ _ => mem_next hg

/-- **The search finds what is near.**  It takes no more hops than there are edges, but then neither
does a walk need more. -/
theorem contains_distances_iff (hg : g.Weighed) :
    (distancesFrom (next g o) (g.hops (some o.depth)) seeds).contains id ↔ Near g o seeds id := by
  rw [ExtTreeMap.contains_eq_isSome_getElem?, Option.isSome_iff_exists]
  constructor
  · rintro ⟨d, hd⟩
    obtain ⟨hhops, hreaches, -⟩ := (getElem?_distancesFrom _).mp hd
    obtain ⟨seed, hseed, es, hwalk, rfl⟩ := (reaches_next_iff hg).mp hreaches
    exact ⟨seed, hseed, es, hwalk, hhops.trans (Nat.min_le_right _ _)⟩
  · rintro ⟨seed, hseed, es, hwalk, hdepth⟩
    obtain ⟨short, hsub, hlimit, hwalk'⟩ := Graph.exists_short_walk hwalk
    have hreaches := (reaches_next_iff hg).mpr ⟨seed, hseed, short, hwalk', rfl⟩
    obtain ⟨d, hd, hdistance⟩ := IsDistance.exists_of_reaches hreaches
    refine ⟨d, (getElem?_distancesFrom _).mpr ⟨hd.trans (Nat.le_min.mpr ⟨hlimit, ?_⟩), hdistance⟩⟩
    exact hsub.length_le.trans hdepth

def nodesNear (g : Graph κ) (o : SubgraphOptions κ) (seeds : List NodeId) : List Node :=
  g.nodeList.filter fun n =>
    (distancesFrom (next g o) (g.hops (some o.depth)) seeds).contains n.id &&
      o.kinds.all (·.contains n.kind)

/-- The edges of a graph that are opened and have both ends among some nodes, by identity. -/
def edgesAmong (g : Graph κ) (f : EdgeFilter κ) (nodes : List Node) : List (Edge κ) :=
  g.edgeList.filter fun e =>
    f.admits e && nodes.any (·.id == e.source) && nodes.any (·.id == e.target)

theorem mem_edgesAmong (hg : g.Weighed) {f : EdgeFilter κ} {nodes : List Node} {e : Edge κ} :
    e ∈ edgesAmong g f nodes ↔ g.edge? e.id = some e ∧ f.Opens e ∧
      (∃ a ∈ nodes, a.id = e.source) ∧ ∃ b ∈ nodes, b.id = e.target := by
  simp only [edgesAmong, mem_filter, Bool.and_eq_true, EdgeFilter.admits_iff_opens,
    any_eq_true, beq_iff_eq, and_assoc, Graph.edgeList, mem_values]
  refine and_congr_left fun _ => ⟨?_, fun h => ⟨e.id, h⟩⟩
  rintro ⟨id, hid⟩
  rw [(hg id e hid).1]
  exact hid

/-- The edges found from some nodes: those that leave one of them, are opened and lead to
another. -/
def edgesFrom (g : Graph κ) (f : EdgeFilter κ) (nodes : List Node) : List (Edge κ) :=
  ((nodes.flatMap fun n => g.outgoing n.id).filter fun e =>
    f.admits e && nodes.any (·.id == e.target)).mergeSort fun a b => (compare a.id b.id).isLE

/-- **The edges found from some nodes are those among them**, if no node is there twice. -/
theorem edgesFrom_eq (hg : g.Weighed) (f : EdgeFilter κ) {nodes : List Node}
    (hnodes : nodes.Pairwise fun a b => compare a.id b.id = .lt) :
    edgesFrom g f nodes = edgesAmong g f nodes := by
  have hascend : (edgesAmong g f nodes).Pairwise fun a b => compare a.id b.id = .lt :=
    (pairwise_values fun id e he => (hg id e he).1).filter _
  refine mergeSort_eq_of_perm ?_ hascend
  have hnodup : (nodes.flatMap fun n => g.outgoing n.id).Nodup := by
    refine nodup_flatMap.mpr ⟨fun n _ => ?_, hnodes.imp ?_⟩
    · rw [g.outgoing_eq]
      exact (Graph.mem_edgesByKind_of_keyed (fun id e he => (hg id e he).1) _).1
    · intro a b hlt e ha hb
      rw [← (hg.mem_outgoing.mp ha).2, ← (hg.mem_outgoing.mp hb).2, Std.compare_self] at hlt
      cases hlt
  have hapart : (edgesAmong g f nodes).Nodup := hascend.imp fun {a b} hlt heq => by
    rw [heq, Std.compare_self] at hlt
    cases hlt
  refine (perm_ext_iff_of_nodup (hnodup.filter _) hapart).mpr fun e => ?_
  simp only [mem_edgesAmong hg, mem_filter, mem_flatMap, hg.mem_outgoing, Bool.and_eq_true,
    EdgeFilter.admits_iff_opens, any_eq_true, beq_iff_eq]
  constructor
  · rintro ⟨⟨a, ha, hedge, hsource⟩, hopens, htarget⟩
    exact ⟨hedge, hopens, ⟨a, ha, hsource.symm⟩, htarget⟩
  · rintro ⟨hedge, hopens, ⟨a, ha, hsource⟩, htarget⟩
    exact ⟨⟨a, ha, hedge, hsource.symm⟩, hopens, htarget⟩

theorem around_of_present (h : ∀ seed ∈ seeds, g.hasNode seed) (o : SubgraphOptions κ) :
    around g seeds o = .ok ⟨nodesNear g o seeds, edgesFrom g o.edges (nodesNear g o seeds)⟩ := by
  have hnone : seeds.find? (fun id => !g.hasNode id) = none := by
    rw [find?_eq_none]
    intro seed hseed
    rw [h seed hseed]
    decide
  rw [around, hnone]
  rfl

theorem mem_nodesNear (hsound : g.Sound) (hg : g.Weighed) {n : Node} :
    n ∈ nodesNear g o seeds ↔ g.node? n.id = some n ∧ Near g o seeds n.id ∧ Wanted o n := by
  have hwanted : o.kinds.all (·.contains n.kind) ↔ Wanted o n := by
    rw [Wanted]
    cases o.kinds with
    | none => simp
    | some kinds => simp
  rw [nodesNear, mem_filter, Bool.and_eq_true, contains_distances_iff hg, hwanted,
    Graph.nodeList, mem_values]
  refine and_congr_left fun _ => ⟨?_, fun h => ⟨n.id, h⟩⟩
  rintro ⟨id, hid⟩
  rw [(hsound id n hid).1]
  exact hid

theorem induces_around (hsound : g.Sound) (hg : g.Weighed) (o : SubgraphOptions κ)
    (seeds : List NodeId) :
    Induces g o seeds ⟨nodesNear g o seeds, edgesAmong g o.edges (nodesNear g o seeds)⟩ where
  nodes _ := mem_nodesNear hsound hg
  edges _ := mem_edgesAmong hg
  nodesAscend := (pairwise_values fun id n hn => (hsound id n hn).1).filter _
  edgesAscend := (pairwise_values fun id e he => (hg id e he).1).filter _

/-- **The part around nodes of a graph** has the nodes near them and the edges among these. -/
theorem around_eq (hsound : g.Sound) (hg : g.Weighed)
    (h : ∀ seed ∈ seeds, g.hasNode seed) (o : SubgraphOptions κ) : around g seeds o =
      .ok ⟨nodesNear g o seeds, edgesAmong g o.edges (nodesNear g o seeds)⟩ := by
  rw [around_of_present h, edgesFrom_eq hg o.edges (induces_around hsound hg o seeds).nodesAscend]

theorem around_eq_error_iff {e : QueryError} : around g seeds o = .error e ↔
    ∃ before after id, e = .nodeNotFound id ∧
      seeds = before ++ id :: after ∧ (∀ seed ∈ before, g.hasNode seed) ∧ g.hasNode id = false := by
  cases hfind : seeds.find? fun id => !g.hasNode id with
  | none =>
    have hpresent : ∀ seed ∈ seeds, g.hasNode seed := by
      intro seed hseed
      simpa using find?_eq_none.mp hfind seed hseed
    rw [around_of_present hpresent]
    refine iff_of_false (by simp) ?_
    rintro ⟨before, after, id, -, rfl, -, hmissing⟩
    rw [hpresent id (mem_append_right _ mem_cons_self)] at hmissing
    cases hmissing
  | some id =>
    obtain ⟨hmissing, before, after, hseeds, hbefore⟩ := find?_eq_some_iff_append.mp hfind
    rw [around, hfind]
    constructor
    · intro h
      refine ⟨before, after, id, (Except.error.inj h).symm, hseeds, fun seed hseed => ?_, ?_⟩
      · simpa using hbefore seed hseed
      · simpa using hmissing
    · rintro ⟨before', after', id', rfl, hseeds', hbefore', hmissing'⟩
      -- the first missing node is found in any list that starts with present ones
      have hfind' : seeds.find? (fun id => !g.hasNode id) = some id' := by
        rw [hseeds', find?_append, find?_eq_none.mpr fun seed hseed => ?_,
          Option.none_or, find?_cons_of_pos (by rw [hmissing']; rfl)]
        rw [hbefore' seed hseed]
        decide
      rw [Option.some.inj (hfind.symm.trans hfind')]

end Subgraph

/-- **The part of a published graph around some nodes is the part that they induce**, or the first
of them that is missing is named.  The part has exactly the wanted nodes to which a walk within the
depth leads from one of the nodes given, along edges that the filter opens and through nodes of any
kind, and exactly the edges that the filter opens and that have both ends in the part.  Nodes and
edges are in the order of their identities, each once. -/
theorem neighbourhood_induced_or_first_missing {s : Store κ} (hs : s.Published)
    (seeds : List NodeId) (o : SubgraphOptions κ) :
    ((∀ seed ∈ seeds, s.graph.hasNode seed = true) →
      ∃ part : Subgraph κ, Subgraph.around s.graph seeds o = .ok part ∧
        Subgraph.Induces s.graph o seeds part) ∧
    ∀ e : QueryError, Subgraph.around s.graph seeds o = .error e ↔
      ∃ (before after : List NodeId) (id : NodeId), e = .nodeNotFound id ∧
        seeds = before ++ id :: after ∧ (∀ seed ∈ before, s.graph.hasNode seed = true) ∧
        s.graph.hasNode id = false :=
  ⟨fun hpresent => ⟨_, Subgraph.around_eq hs.sound hs.weighed hpresent o,
    Subgraph.induces_around hs.sound hs.weighed o seeds⟩, fun _ => Subgraph.around_eq_error_iff⟩

end

/-- A method that calls itself, a mapper and, with little confidence, another method.  The mapper
runs a statement, which leads back to the first method. -/
def loopedFile : Contribution Float :=
  let node (kind : NodeKind) (name : String) : Node := { Node.stub kind name name with kind := kind }
  let edge (a b : Node) (confidence : Float) : Edge Float :=
    Edge.of a.id b.id .invokes confidence { file := "A.java", line := 1 }
  let method := node .serviceMethod "A.a/0"
  let other := node .serviceMethod "A.b/0"
  let mapper := node .mapperMethod "M.m/0"
  let statement := node .statement "M.m"
  { key := ⟨"k"⟩, path := "A.java"
    nodes := [method, other, mapper, statement]
    edges := [edge method method 1, edge method other 0.2, edge method mapper 0.9,
      edge mapper statement 1, edge statement method 0.8] }

/-- Two hops from the first method, named twice, to methods of services and statements, along edges
of at least half the confidence. -/
def loopedOptions : SubgraphOptions Float where
  kinds := some [.serviceMethod, .statement]
  edges := ⟨none, none, 0.5⟩
  depth := 2
  direction := .backward

/-- The statement is in the part although the mapper on the way is not, and so are the call of the
method by itself and the edge back to it, which no walk of two hops has followed. -/
theorem looped_neighbourhood_induced :
    let g := (Store.afterCalls [.apply loopedFile]).graph
    let a := NodeId.of .serviceMethod "A.a/0"
    let b := NodeId.of .statement "M.m"
    ((Subgraph.around g [a, a] loopedOptions).toOption.map fun part =>
        (part.nodes.map (·.id), part.edges.map fun e => (e.source, e.target))) =
          some ([a, b], [(b, a), (a, a)]) ∧
      (∃ part : Subgraph Float, Subgraph.around g [a, a] loopedOptions = .ok part ∧
        Subgraph.Induces g loopedOptions [a, a] part) ∧
      Subgraph.around g [a, ⟨1⟩, ⟨2⟩] loopedOptions = .error (.nodeNotFound ⟨1⟩) := by
  intro g a b
  have hnodes : g.hasNode a = true ∧ g.hasNode ⟨1⟩ = false := by decide +kernel
  have hpublished := Store.published_afterCalls [.apply loopedFile]
  obtain ⟨hpresent, -⟩ := neighbourhood_induced_or_first_missing hpublished [a, a] loopedOptions
  obtain ⟨-, hmissing⟩ :=
    neighbourhood_induced_or_first_missing hpublished [a, ⟨1⟩, ⟨2⟩] loopedOptions
  have haround := Subgraph.around_eq hpublished.sound hpublished.weighed
    (by simpa using hnodes.1 : ∀ seed ∈ [a, a], g.hasNode seed = true) loopedOptions
  refine ⟨?_, hpresent (by simpa using hnodes.1), (hmissing _).mpr ?_⟩
  · rw [haround]
    decide +kernel
  · exact ⟨[a], [⟨2⟩], ⟨1⟩, rfl, rfl, by simpa using hnodes.1, hnodes.2⟩

end AppAtlas
