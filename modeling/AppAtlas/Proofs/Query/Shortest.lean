import AppAtlas.Proofs.Query.Layers
import AppAtlas.Proofs.Query.Strategies

/-!
# Shortest paths

With a floor of zero a path is found if and only if there is one within the bound.  It is that of a
walk along strongest edges which has the fewest hops.  Such a walk comes to no node twice, as it
could be cut there.

The numbers need not be exact.  A product of doubles can become zero on the way, but then it is
still not below the floor, and which of two paths is better decides only between walks of the fewest
hops.

* `GraphPath.exists_walk_of_search?`: the path found is that of a walk along strongest edges.
* `GraphPath.search?_eq_some_of_reachable`: something is found if the goal is within the bound.
* `shortest_path_valid_and_fewest_hops`: what path is found, and when.
-/

namespace AppAtlas

open List OrderedMap
open Std (ExtTreeMap)

variable {κ : Type}

theorem Trail.nodes_eq {hop : NodeId → Edge κ → NodeId → Prop} {a b : NodeId} {es : List (Edge κ)}
    {vs : List NodeId} (htarget : ∀ u e v, hop u e v → e.target = v) (h : Trail hop a es vs b) :
    vs = a :: es.map (·.target) := by
  induction h with
  | stay => rfl
  | step _ he ih => rw [ih, map_append, map_singleton, htarget _ _ _ he, cons_append]

namespace GraphPath

variable [Confidence κ] {g : Graph κ} {f : EdgeFilter κ} {start goal u v : NodeId}
  {es : List (Edge κ)} {p : GraphPath κ}

/-- **The path has the strongest edge for each of its hops**: it has one node more than edges, and
each edge is the strongest from the node at its place to the node after it. -/
def OverStrongest (g : Graph κ) (f : EdgeFilter κ) (p : GraphPath κ) : Prop :=
  p.nodes.length = p.edges.length + 1 ∧
    ∀ (i : Nat) (u v : NodeId), p.nodes[i]? = some u → p.nodes[i + 1]? = some v →
      ∃ e : Edge κ, p.edges[i]? = some e.id ∧ g.Strongest f u e v

/-! ### Walks along strongest edges -/

theorem getLast?_nodes_following (h : Walk (g.Strongest f) start es v) :
    (following start es).nodes.getLast? = some v := by
  rw [nodes_following]
  cases h with
  | stay => rfl
  | step _ he =>
    rw [map_append, map_singleton, ← cons_append, getLast?_concat, he.target_eq]

theorem overStrongest_following (h : Walk (g.Strongest f) start es v) :
    (following start es).OverStrongest g f := by
  rw [OverStrongest, nodes_following, edges_following]
  refine ⟨by simp, ?_⟩
  induction h with
  | stay => exact fun i u v _ hv => absurd hv (by simp)
  | @step es w v e hwalk he ih =>
    intro i x y hx hy
    have hlast := getLast?_nodes_following hwalk
    rw [nodes_following, getLast?_eq_getElem?] at hlast
    rw [map_append, map_singleton, ← cons_append] at hx hy
    rw [map_append, map_singleton]
    have hlength : (start :: es.map (·.target)).length = es.length + 1 := by simp
    rcases Nat.lt_trichotomy i es.length with hi | rfl | hi
    · -- a hop before the last one
      rw [getElem?_append_left (by omega)] at hx hy
      obtain ⟨d, hd, hstrongest⟩ := ih i x y hx hy
      exact ⟨d, by rwa [getElem?_append_left (by simpa using hi)], hstrongest⟩
    · rw [getElem?_append_left (by omega)] at hx
      rw [getElem?_append_right (by omega), hlength, Nat.sub_self] at hy
      rw [hlength, Nat.add_sub_cancel] at hlast
      obtain rfl := Option.some.inj (hlast.symm.trans hx)
      have hy : e.target = y := by simpa using hy
      exact ⟨e, by simp, hy ▸ he.target_eq.symm ▸ he⟩
    · rw [getElem?_eq_none (by simp; omega)] at hy
      cases hy

theorem nodup_nodes_following (h : Walk (g.Strongest f) start es v)
    (hleast : IsLeast (g.hopCounts .backward f start v) es.length) :
    (following start es).nodes.Nodup := by
  obtain ⟨short, vs, hsub, hnodup, htrail⟩ := h.exists_trail
  have hshort := hleast.2 ⟨short, walk_kinds htrail.walk, rfl⟩
  obtain rfl := hsub.eq_of_length_le hshort
  rwa [nodes_following, ← htrail.nodes_eq fun _ _ _ hhop => hhop.target_eq]

variable [Confidence.Ranked κ]

theorem zero_le_confidence_following (hg : g.Weighed) (h : Walk (g.Strongest f) start es v) :
    (0.0 : κ) ≤ (following start es).confidence := by
  induction h with
  | stay => exact Confidence.Ranked.zero_le_one
  | @step es u v e _ he ih =>
    rw [following_concat]
    exact Confidence.Ranked.zero_le_mul _ _ ih (hg e.id e he.hop.edge).2

/-! ### The path found -/

/-- **The path found is that of a walk along strongest edges**, of the fewest hops and within the
bound. -/
theorem exists_walk_of_search? (hg : g.Weighed) (h : search? g f start goal = some p) :
    ∃ es : List (Edge κ), Walk (g.Strongest f) start es goal ∧ f.Within es.length ∧
      IsLeast (g.hopCounts .backward f start goal) es.length ∧ p = following start es := by
  rw [search?_eq] at h
  obtain ⟨far, -, hp⟩ := Option.bind_eq_some_iff.mp h
  obtain ⟨hbest, -⟩ := Option.filter_eq_some_iff.mp hp
  obtain ⟨es, -, hcount, hwalk, rfl⟩ := (laid_layerAt hg f start goal far).held goal p hbest
  obtain ⟨hwithin, hleast⟩ := (getElem?_hopCounts_goal hg).mp hcount
  exact ⟨es, hwalk, hwithin, hleast, rfl⟩

/-- **Something is found if the goal can be reached within the bound**, with a floor of zero. -/
theorem search?_eq_some_of_reachable (hg : g.Weighed) (hzero : f.minConfidence = 0.0) {n : Nat}
    (hn : n ∈ g.hopCounts .backward f start goal) (hwithin : f.Within n) :
    ∃ p, search? g f start goal = some p := by
  obtain ⟨d, hleast⟩ : ∃ d, IsLeast (g.hopCounts .backward f start goal) d :=
    ⟨_, Nat.sInf_mem ⟨n, hn⟩, fun _ hm => Nat.sInf_le hm⟩
  have hcount : (hopCounts g f start goal)[goal]? = some d :=
    (getElem?_hopCounts_goal hg).mpr ⟨hwithin.of_le (hleast.2 hn), hleast⟩
  have hlaid := laid_layerAt hg f start goal d
  obtain ⟨p, hp⟩ := hlaid.found goal d (Nat.le_refl d) hcount
  obtain ⟨es, -, -, hwalk, rfl⟩ := hlaid.held goal p hp
  refine ⟨following start es, ?_⟩
  rw [search?_eq, hcount, Option.bind_some, hp, Option.filter_some, hzero,
    if_pos (decide_eq_true (zero_le_confidence_following hg hwalk))]

end GraphPath

/-- **A shortest path is valid and has the fewest hops.**  Take a published graph, two different
nodes of it, and a filter with a floor of zero.  A path is found if and only if a walk within the
bound leads from the first node to the second along edges of the kinds that the filter allows, and
else the answer is that there is no path.  The path found starts at the first node, ends at the
second and has no node twice.  Each of its hops is by the listed edge, which is the strongest of the
allowed kinds between the two nodes.  No walk along edges of the allowed kinds has fewer hops. -/
theorem shortest_path_valid_and_fewest_hops [Confidence κ] [Confidence.Ranked κ] {s : Store κ}
    (hs : s.Published) {a b : NodeId} (ha : s.graph.hasNode a = true)
    (hb : s.graph.hasNode b = true) (hab : a ≠ b) (f : EdgeFilter κ)
    (hzero : f.minConfidence = 0.0) :
    ((∃ p : GraphPath κ, GraphPath.shortest s.graph f a b = .ok p) ↔
      ∃ n ∈ s.graph.hopCounts .backward f a b, f.Within n) ∧
    (∀ p : GraphPath κ, GraphPath.shortest s.graph f a b = .ok p →
      p.nodes.head? = some a ∧ p.nodes.getLast? = some b ∧ p.nodes.Nodup ∧
      p.OverStrongest s.graph f ∧ IsLeast (s.graph.hopCounts .backward f a b) p.hops) ∧
    ((¬∃ n ∈ s.graph.hopCounts .backward f a b, f.Within n) →
      GraphPath.shortest s.graph f a b = .error (.noPath a b)) := by
  have hg := hs.weighed
  have hshortest := GraphPath.shortest_eq_elim (f := f) ha hb hab
  have hwalk : ∀ p : GraphPath κ, GraphPath.shortest s.graph f a b = .ok p →
      ∃ es : List (Edge κ), Walk (s.graph.Strongest f) a es b ∧ f.Within es.length ∧
        IsLeast (s.graph.hopCounts .backward f a b) es.length ∧ p = GraphPath.following a es := by
    intro p hp
    rw [hshortest] at hp
    cases hsearch : GraphPath.search? s.graph f a b with
    | none =>
      rw [hsearch] at hp
      exact absurd hp (by simp)
    | some q =>
      rw [hsearch, Option.elim_some] at hp
      exact GraphPath.exists_walk_of_search? hg (Except.ok.inj hp ▸ hsearch)
  refine ⟨⟨?_, ?_⟩, ?_, ?_⟩
  · rintro ⟨p, hp⟩
    obtain ⟨es, -, hwithin, hleast, -⟩ := hwalk p hp
    exact ⟨es.length, hleast.1, hwithin⟩
  · rintro ⟨n, hn, hwithin⟩
    obtain ⟨p, hp⟩ := GraphPath.search?_eq_some_of_reachable hg hzero hn hwithin
    exact ⟨p, by rw [hshortest, hp, Option.elim_some]⟩
  · intro p hp
    obtain ⟨es, hes, -, hleast, rfl⟩ := hwalk p hp
    refine ⟨by rw [GraphPath.nodes_following, List.head?_cons],
      GraphPath.getLast?_nodes_following hes, GraphPath.nodup_nodes_following hes hleast,
      GraphPath.overStrongest_following hes, ?_⟩
    rwa [GraphPath.hops, GraphPath.edges_following, List.length_map]
  · intro hnone
    cases hsearch : GraphPath.search? s.graph f a b with
    | none => rw [hshortest, hsearch, Option.elim_none]
    | some q =>
      obtain ⟨es, -, hwithin, hleast, -⟩ := GraphPath.exists_walk_of_search? hg hsearch
      exact absurd ⟨es.length, hleast.1, hwithin⟩ hnone

/-- A method calls another one, which calls a third, and the first also includes the second, with
confidences so small that their product as a double is zero. -/
def faintParallelFile : Contribution Float :=
  methodFile ["A.a/0", "A.b/0", "A.c/0"]
    [callEdge "A.a/0" "A.b/0" 1e-200, callEdge "A.a/0" "A.b/0" 1e-200 .includes,
      callEdge "A.b/0" "A.c/0" 1e-200]

/-- From the first method to the third there is a path although its confidence is zero.  Of the two
edges to the second method it has the one with the lower identity, which is the inclusion. -/
theorem faint_path_valid :
    let g := (Store.afterCalls [.apply faintParallelFile]).graph
    let a := NodeId.of .serviceMethod "A.a/0"
    let b := NodeId.of .serviceMethod "A.b/0"
    let c := NodeId.of .serviceMethod "A.c/0"
    (g.hasNode a = true ∧ g.hasNode c = true ∧ a ≠ c ∧
      (GraphPath.shortest g .all a c).toOption.map (fun p => (p.nodes, p.edges, p.confidence)) =
        some ([a, b, c], [EdgeId.of a b .includes, EdgeId.of b c .invokes], 0.0)) ∧
      ∀ p : GraphPath Float, GraphPath.shortest g .all a c = .ok p →
        p.nodes.Nodup ∧ p.OverStrongest g .all ∧
          IsLeast (g.hopCounts .backward .all a c) p.hops := by
  intro g a b c
  have hgraph : g.hasNode a = true ∧ g.hasNode c = true ∧ a ≠ c ∧
      (GraphPath.shortest g .all a c).toOption.map (fun p => (p.nodes, p.edges, p.confidence)) =
        some ([a, b, c], [EdgeId.of a b .includes, EdgeId.of b c .invokes], 0.0) := by
    decide +kernel
  obtain ⟨-, hvalid, -⟩ := shortest_path_valid_and_fewest_hops
    (Store.published_afterCalls [.apply faintParallelFile]) hgraph.1 hgraph.2.1 hgraph.2.2.1 .all
    rfl
  exact ⟨hgraph, fun p hp => (hvalid p hp).2.2⟩

end AppAtlas
