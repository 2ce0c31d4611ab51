import AppAtlas.Proofs.Confidence
import AppAtlas.Proofs.Store.Contributions
import Mathlib.Data.List.Nodup

/-!
# Graphs made of contributions

`Graph.Shows` says what a graph holds by the functions that read it off the contributions.  Here the
same is said entry by entry, of the contributions alone: which nodes and edges there are, from which
file each comes, and what the lists of edges and of nodes that the graph gives out have in them.

* `Graph.MadeOf`: the entries of a graph made of contributions.
* `Graph.Shows.madeOf`: a graph that shows sound contributions is made of them.
-/

namespace AppAtlas

open List Std OrderedMap Contributions

variable {κ : Type} [Confidence κ] {t : Contributions κ} {g : Graph κ}

/-- **A graph is made of contributions**: what each of its parts has to be, said of the
contributions alone.  A contribution speaks of an identity by its first entry with that identity. -/
structure Graph.MadeOf (g : Graph κ) (t : Contributions κ) : Prop where
  node_isSome : ∀ id : NodeId, (g.node? id).isSome ↔
    ∃ (p : String) (c : Contribution κ), t[p]? = some c ∧ c.carries id
  node_defined : ∀ (id : NodeId) (p : String) (c : Contribution κ) (n : Node),
    t[p]? = some c → c.node? id = some n →
    (∀ (q : String) (d : Contribution κ), t[q]? = some d → (d.node? id).isSome →
      (compare p q).isLE) →
    g.node? id = some n
  /-- If no path defines it, it is the placeholder of the first path that has one. -/
  node_standingIn : ∀ (id : NodeId) (p : String) (c : Contribution κ) (n : Node),
    (∀ (q : String) (d : Contribution κ), t[q]? = some d → d.node? id = none) →
    t[p]? = some c → c.placeholder? id = some n →
    (∀ (q : String) (d : Contribution κ), t[q]? = some d → (d.placeholder? id).isSome →
      (compare p q).isLE) →
    g.node? id = some n
  edge_isSome : ∀ id : EdgeId, (g.edge? id).isSome ↔
    ∃ (p : String) (c : Contribution κ), t[p]? = some c ∧ (c.edge? id).isSome
  /-- Its ends and its kind are those that the first path gives it. -/
  edge_ends : ∀ (id : EdgeId) (e : Edge κ), g.edge? id = some e → e.id = id ∧
    ∃ (p : String) (c : Contribution κ) (d : Edge κ), t[p]? = some c ∧ c.edge? id = some d ∧
      (∀ (q : String) (c' : Contribution κ), t[q]? = some c' → (c'.edge? id).isSome →
        (compare p q).isLE) ∧
      e.source = d.source ∧ e.target = d.target ∧ e.kind = d.kind
  edge_confidence : ∀ (id : EdgeId) (e : Edge κ), g.edge? id = some e →
    (∃ (p : String) (c : Contribution κ) (d : Edge κ), t[p]? = some c ∧ c.edge? id = some d ∧
      d.confidence = e.confidence) ∧
    ∀ (p : String) (c : Contribution κ) (d : Edge κ), t[p]? = some c → c.edge? id = some d →
      d.confidence ≤ e.confidence
  /-- Its evidence is all that files give, in order and each once. -/
  edge_evidence : ∀ (id : EdgeId) (e : Edge κ), g.edge? id = some e →
    e.evidence.Pairwise (fun a b => compare a b = .lt) ∧
    ∀ v : Evidence, v ∈ e.evidence ↔
      ∃ (p : String) (c : Contribution κ) (d : Edge κ), t[p]? = some c ∧ c.edge? id = some d ∧
        v ∈ d.evidence
  /-- The paths that define a node are listed in order and each once. -/
  definers : ∀ id : NodeId, (g.definersOf id).Pairwise (fun p q => compare p q = .lt) ∧
    ∀ p : String, p ∈ g.definersOf id ↔
      ∃ c : Contribution κ, t[p]? = some c ∧ (c.node? id).isSome
  files : ∀ p : String, g.fileKey? p = t[p]?.map (·.key)
  provenance : ∀ p : String, g.provenanceAt? p = t[p]?.map (·.provenance)
  provenance_only : ∀ (k : FileKey) (v : Provenance), g.provenance[k]? = some v →
    ∃ (p : String) (c : Contribution κ), t[p]? = some c ∧ c.key = k ∧ c.provenance = v
  /-- The indices have each edge under its kind and its ends and each node under its keys, as the
  contributions make them, and nothing else. -/
  forward : ∀ (kind : EdgeKind) (node : NodeId) (id : EdgeId), id ∈ g.forward.edges kind node ↔
    ∃ e : Edge κ, t.edge? id = some e ∧ e.kind = kind ∧ e.source = node
  reverse : ∀ (kind : EdgeKind) (node : NodeId) (id : EdgeId), id ∈ g.reverse.edges kind node ↔
    ∃ e : Edge κ, t.edge? id = some e ∧ e.kind = kind ∧ e.target = node
  symbols : ∀ (key : LookupKey) (id : NodeId), id ∈ g.symbols.entries key ↔
    ∃ n : Node, t.node? id = some n ∧ key ∈ n.lookupKeys
  /-- The edges that leave a node, and those that enter it, are the edges with that end. -/
  outgoing : ∀ id : NodeId, (g.outgoing id).Nodup ∧
    ∀ e : Edge κ, e ∈ g.outgoing id ↔ g.edge? e.id = some e ∧ e.source = id
  incoming : ∀ id : NodeId, (g.incoming id).Nodup ∧
    ∀ e : Edge κ, e ∈ g.incoming id ↔ g.edge? e.id = some e ∧ e.target = id
  /-- The nodes under a key are those that stand under it. -/
  lookup : ∀ key : LookupKey, (g.lookup key).Nodup ∧
    ∀ n : Node, n ∈ g.lookup key ↔ g.node? n.id = some n ∧ key ∈ n.lookupKeys

/-! ### Nodes -/

omit [Confidence κ] in
theorem Contributions.node?_of_first {id : NodeId} {p : String} {c : Contribution κ} {n : Node}
    (hc : t[p]? = some c) (hn : c.node? id = some n)
    (hleast : ∀ q d, t[q]? = some d → (d.node? id).isSome →
      (compare p q).isLE) : t.node? id = some n := by
  have hhead : (t.defining id).values.head? = some n :=
    head?_collect_eq_some_iff.mpr ⟨p, c, hc, hn, hleast⟩
  rw [node?, hhead]
  rfl

/-! ### Edges by identity -/

namespace Graph

omit [Confidence κ]

theorem mem_edgeList_of_keyed (hg : ∀ id e, g.edge? id = some e → e.id = id)
    {e : Edge κ} : e ∈ g.edgeList ↔ g.edge? e.id = some e := by
  rw [edgeList, mem_values]
  constructor
  · rintro ⟨id, he⟩
    rw [hg id e he]
    exact he
  · exact fun he => ⟨e.id, he⟩

def edgesByKind (g : Graph κ) (picks : Edge κ → Bool) : List (Edge κ) :=
  EdgeKind.all.flatMap fun kind => g.edgeList.filter fun e => e.kind == kind && picks e

theorem adjacent_eq {a : Adjacency} {endOf : Edge κ → NodeId} (h : a.Lists g.edges endOf)
    (id : NodeId) : g.adjacent a id = g.edgesByKind (endOf · == id) := by
  rw [adjacent, edgesByKind]
  congr 1
  funext kind
  exact filterMap_toList_eq_filter fun i => by simp [h kind id i]

theorem outgoing_eq (g : Graph κ) (id : NodeId) : g.outgoing id = g.edgesByKind (·.source == id) :=
  adjacent_eq g.forward_lists id

theorem incoming_eq (g : Graph κ) (id : NodeId) : g.incoming id = g.edgesByKind (·.target == id) :=
  adjacent_eq g.reverse_lists id

theorem lookup_eq_filter (g : Graph κ) (key : LookupKey) :
    g.lookup key = g.nodeList.filter fun n => n.lookupKeys.contains key :=
  filterMap_toList_eq_filter fun id => by simp [g.symbols_lists key id]

theorem mem_edgesByKind {picks : Edge κ → Bool} {e : Edge κ} :
    e ∈ g.edgesByKind picks ↔ e ∈ g.edgeList ∧ picks e := by
  have hkind : e.kind ∈ EdgeKind.all := by cases e.kind <;> decide
  simp only [edgesByKind, mem_flatMap, mem_filter, Bool.and_eq_true, beq_iff_eq]
  constructor
  · rintro ⟨kind, -, he, -, hpicks⟩
    exact ⟨he, hpicks⟩
  · rintro ⟨he, hpicks⟩
    exact ⟨e.kind, hkind, he, rfl, hpicks⟩

/-- In a graph whose edges stand under their own identities, the edges picked by kind and identity
are the edges picked, each once. -/
theorem mem_edgesByKind_of_keyed
    (hg : ∀ id e, g.edge? id = some e → e.id = id) (picks : Edge κ → Bool) :
    (g.edgesByKind picks).Nodup ∧
    ∀ e, e ∈ g.edgesByKind picks ↔ g.edge? e.id = some e ∧ picks e := by
  have hnodup : g.edgeList.Nodup := nodup_values hg
  constructor
  · rw [edgesByKind, nodup_flatMap]
    refine ⟨fun kind _ => hnodup.filter _, ?_⟩
    have hkinds : EdgeKind.all.Pairwise (· ≠ ·) := by decide
    refine hkinds.imp fun {k k'} hne e he he' => hne ?_
    simp only [mem_filter, Bool.and_eq_true, beq_iff_eq] at he he'
    exact he.2.1.symm.trans he'.2.1
  · intro e
    rw [mem_edgesByKind, mem_edgeList_of_keyed hg]

end Graph

namespace Graph.Shows

theorem node_isSome_iff (h : g.Shows t) (id : NodeId) : (g.node? id).isSome ↔
    ∃ (p : String) (c : Contribution κ), t[p]? = some c ∧ c.carries id := by
  rw [Graph.node?, ExtTreeMap.get?_eq_getElem?, h.nodes]
  constructor
  · intro hsome
    obtain ⟨n, hn⟩ := Option.isSome_iff_exists.mp hsome
    obtain ⟨p, c, hc, hcn⟩ := exists_of_node? hn
    refine ⟨p, c, hc, ?_⟩
    rcases hcn with hcn | hcn <;> simp [Contribution.carries, hcn]
  · rintro ⟨p, c, hc, hcarries⟩
    -- without a node no file would carry it
    refine Option.isSome_iff_ne_none.mpr fun hnone => ?_
    rw [Contributions.node?, Option.or_eq_none_iff] at hnone
    have hdefined := head?_collect_eq_none_iff.mp hnone.1 p c hc
    have hstanding := head?_collect_eq_none_iff.mp hnone.2 p c hc
    rw [Contribution.carries, hdefined, hstanding] at hcarries
    cases hcarries

theorem id_of_node? (h : g.Shows t) {id : NodeId} {n : Node} (hn : g.nodes[id]? = some n) :
    n.id = id := Contributions.id_of_node? ((h.nodes id).symm.trans hn)

/-! ### Edges -/

omit [Confidence κ] in
theorem mem_parts {id : EdgeId} {d : Edge κ} : d ∈ (t.parts id).values ↔
    ∃ (p : String) (c : Contribution κ), t[p]? = some c ∧ c.edge? id = some d := by
  rw [mem_values]
  simp only [parts, getElem?_collect, Option.bind_eq_some_iff]

/-- An edge is joined from what the files say about it. -/
theorem exists_parts (h : g.Shows t) {id : EdgeId} {e : Edge κ} (he : g.edge? id = some e) :
    ∃ first others, (t.parts id).values = first :: others ∧
      e = (others.foldl Edge.merge first).settle := by
  rw [Graph.edge?, ExtTreeMap.get?_eq_getElem?, h.edges, Contributions.edge?] at he
  split at he
  · cases he
  · next first others hparts => exact ⟨first, others, hparts, (Option.some.inj he).symm⟩

theorem edge_isSome_iff (h : g.Shows t) (id : EdgeId) : (g.edge? id).isSome ↔
    ∃ (p : String) (c : Contribution κ), t[p]? = some c ∧ (c.edge? id).isSome := by
  constructor
  · intro hsome
    obtain ⟨e, he⟩ := Option.isSome_iff_exists.mp hsome
    obtain ⟨first, others, hparts, -⟩ := h.exists_parts he
    obtain ⟨p, c, hc, hd⟩ := mem_parts.mp (hparts ▸ mem_cons_self)
    exact ⟨p, c, hc, by rw [hd]; rfl⟩
  · rintro ⟨p, c, hc, hsome⟩
    obtain ⟨d, hd⟩ := Option.isSome_iff_exists.mp hsome
    have hmem : d ∈ (t.parts id).values := mem_parts.mpr ⟨p, c, hc, hd⟩
    rw [Graph.edge?, ExtTreeMap.get?_eq_getElem?, h.edges, Contributions.edge?]
    cases hparts : (t.parts id).values with
    | nil => rw [hparts] at hmem; cases hmem
    | cons first others => rfl

theorem edge_ends (h : g.Shows t) {id : EdgeId} {e : Edge κ} (he : g.edge? id = some e) :
    e.id = id ∧
      ∃ (p : String) (c : Contribution κ) (d : Edge κ), t[p]? = some c ∧ c.edge? id = some d ∧
        (∀ (q : String) (c' : Contribution κ), t[q]? = some c' → (c'.edge? id).isSome →
          (compare p q).isLE) ∧ e.source = d.source ∧ e.target = d.target ∧ e.kind = d.kind := by
  obtain ⟨first, others, hparts, rfl⟩ := h.exists_parts he
  have hhead : (t.parts id).values.head? = some first := by rw [hparts, head?_cons]
  obtain ⟨p, c, hc, hd, hleast⟩ := head?_collect_eq_some_iff.mp hhead
  obtain ⟨hid, hsource, htarget, hkind⟩ := Edge.foldl_merge_ends others first
  exact ⟨hid.trans (Contribution.id_of_edge? hd), p, c, first, hc, hd, hleast, hsource, htarget,
    hkind⟩

theorem edge_confidence [Confidence.Ordered κ] (h : g.Shows t)
    (hsound : ∀ (p : String) (c : Contribution κ), t[p]? = some c → c.IsSound) {id : EdgeId}
    {e : Edge κ} (he : g.edge? id = some e) :
    (∃ (p : String) (c : Contribution κ) (d : Edge κ), t[p]? = some c ∧ c.edge? id = some d ∧
      d.confidence = e.confidence) ∧
    ∀ (p : String) (c : Contribution κ) (d : Edge κ), t[p]? = some c → c.edge? id = some d →
      d.confidence ≤ e.confidence := by
  obtain ⟨first, others, hparts, rfl⟩ := h.exists_parts he
  have hconfidence : (others.foldl Edge.merge first).settle.confidence =
      (others.map (·.confidence)).foldl Confidence.max first.confidence :=
    Edge.foldl_merge_confidence others first
  have hmem : ∀ x : κ, x ∈ first.confidence :: others.map (·.confidence) ↔
      ∃ (p : String) (c : Contribution κ) (d : Edge κ), t[p]? = some c ∧ c.edge? id = some d ∧
        d.confidence = x := by
    intro x
    rw [← map_cons, ← hparts, mem_map]
    constructor
    · rintro ⟨d, hd, hx⟩
      obtain ⟨p, c, hc, hcd⟩ := mem_parts.mp hd
      exact ⟨p, c, d, hc, hcd, hx⟩
    · rintro ⟨p, c, d, hc, hcd, hx⟩
      exact ⟨d, mem_parts.mpr ⟨p, c, hc, hcd⟩, hx⟩
  rw [hconfidence]
  refine ⟨(hmem _).mp (Confidence.foldl_max_mem _ _), fun p c d hc hd => ?_⟩
  refine Confidence.le_foldl_max (fun x hx => ?_) _ ((hmem _).mpr ⟨p, c, d, hc, hd, rfl⟩)
  obtain ⟨q, c', d', hc', hd', rfl⟩ := (hmem x).mp hx
  exact ((hsound q c' hc').edge (mem_of_find?_eq_some hd')).2.1

theorem edge_evidence (h : g.Shows t) {id : EdgeId} {e : Edge κ} (he : g.edge? id = some e) :
    e.evidence.Pairwise (fun a b => compare a b = .lt) ∧ ∀ v : Evidence, v ∈ e.evidence ↔
      ∃ (p : String) (c : Contribution κ) (d : Edge κ), t[p]? = some c ∧ c.edge? id = some d ∧
        v ∈ d.evidence := by
  obtain ⟨first, others, hparts, rfl⟩ := h.exists_parts he
  refine ⟨pairwise_sortedSet _, fun v => ?_⟩
  show v ∈ sortedSet _ ↔ _
  rw [mem_sortedSet, Edge.mem_evidence_foldl_merge, ← hparts]
  constructor
  · rintro ⟨d, hd, hv⟩
    obtain ⟨p, c, hc, hcd⟩ := mem_parts.mp hd
    exact ⟨p, c, d, hc, hcd, hv⟩
  · rintro ⟨p, c, d, hc, hcd, hv⟩
    exact ⟨d, mem_parts.mpr ⟨p, c, hc, hcd⟩, hv⟩

/-! ### Files -/

theorem mem_definersOf (h : g.Shows t) (id : NodeId) :
    (g.definersOf id).Pairwise (fun p q => compare p q = .lt) ∧ ∀ p, p ∈ g.definersOf id ↔
      ∃ c, t[p]? = some c ∧ (c.node? id).isSome := by
  have hmem : ∀ p, p ∈ t.defining id ↔
      ∃ c, t[p]? = some c ∧ (c.node? id).isSome := by
    intro p
    rw [ExtTreeMap.mem_iff_isSome_getElem?, defining, getElem?_collect,
      Option.isSome_bind, Option.any_eq_true_iff_get]
    constructor
    · rintro ⟨hsome, hc⟩
      exact ⟨_, Option.eq_some_of_isSome hsome, hc⟩
    · rintro ⟨c, hc, hsome⟩
      refine ⟨by rw [hc]; rfl, ?_⟩
      simpa [hc] using hsome
  have hdefiners : g.definersOf id = ((t.definers? id).map (·.toList)).getD [] := by
    rw [Graph.definersOf, ExtTreeMap.get?_eq_getElem?, h.definers]
  rw [hdefiners, definers?]
  split
  · next hempty =>
    rw [ExtTreeMap.isEmpty_iff] at hempty
    refine ⟨Pairwise.nil, fun p => ?_⟩
    rw [← hmem p, hempty]
    simp
  · refine ⟨ExtTreeSet.ordered_toList, fun p => ?_⟩
    rw [← hmem p]
    simp [ExtTreeSet.mem_ofList]

theorem provenanceAt?_eq (h : g.Shows t) (p : String) :
    g.provenanceAt? p = t[p]?.map (·.provenance) := by
  rw [Graph.provenanceAt?, Graph.fileKey?, ExtTreeMap.get?_eq_getElem?, h.files]
  cases hc : t[p]? with
  | none => rfl
  | some c => exact (h.provenance c.key c.provenance).mpr ⟨p, c, hc, rfl, rfl⟩

/-! ### Lists -/

theorem mem_nodeList (h : g.Shows t) {n : Node} : n ∈ g.nodeList ↔ g.node? n.id = some n := by
  rw [Graph.nodeList, mem_values]
  constructor
  · rintro ⟨id, hn⟩
    rw [h.id_of_node? hn]
    exact hn
  · exact fun hn => ⟨n.id, hn⟩

theorem nodup_nodeList (h : g.Shows t) : g.nodeList.Nodup :=
  nodup_values fun _ _ hn => h.id_of_node? hn

theorem mem_edgeList (h : g.Shows t) {e : Edge κ} : e ∈ g.edgeList ↔ g.edge? e.id = some e :=
  Graph.mem_edgeList_of_keyed fun _ _ he => (h.edge_ends he).1

theorem mem_edgesByKind (h : g.Shows t) (picks : Edge κ → Bool) : (g.edgesByKind picks).Nodup ∧
    ∀ e : Edge κ, e ∈ g.edgesByKind picks ↔ g.edge? e.id = some e ∧ picks e :=
  Graph.mem_edgesByKind_of_keyed (fun _ _ he => (h.edge_ends he).1) picks

/-- **A graph that shows sound contributions is made of them.** -/
theorem madeOf [Confidence.Ordered κ] (h : g.Shows t)
    (hsound : ∀ (p : String) (c : Contribution κ), t[p]? = some c → c.IsSound) : g.MadeOf t where
  node_isSome := h.node_isSome_iff
  node_defined id p c n hc hn hleast := by
    rw [Graph.node?, ExtTreeMap.get?_eq_getElem?, h.nodes]
    exact node?_of_first hc hn hleast
  node_standingIn id p c n hnone hc hn hleast := by
    have hdefining : (t.defining id).values.head? = none :=
      head?_collect_eq_none_iff.mpr hnone
    have hhead : (t.standingIn id).values.head? = some n :=
      head?_collect_eq_some_iff.mpr ⟨p, c, hc, hn, hleast⟩
    rw [Graph.node?, ExtTreeMap.get?_eq_getElem?, h.nodes, Contributions.node?, hdefining, hhead]
    rfl
  edge_isSome := h.edge_isSome_iff
  edge_ends _ _ he := h.edge_ends he
  edge_confidence _ _ he := h.edge_confidence hsound he
  edge_evidence _ _ he := h.edge_evidence he
  definers := h.mem_definersOf
  files := h.files
  provenance := h.provenanceAt?_eq
  provenance_only k v hv := (h.provenance k v).mp hv
  forward kind node id := by simp only [g.forward_lists kind node id, h.edges]
  reverse kind node id := by simp only [g.reverse_lists kind node id, h.edges]
  symbols key id := by simp only [g.symbols_lists key id, h.nodes]
  outgoing id := by
    have hpicks := h.mem_edgesByKind fun e => e.source == id
    simp only [beq_iff_eq] at hpicks
    rwa [g.outgoing_eq]
  incoming id := by
    have hpicks := h.mem_edgesByKind fun e => e.target == id
    simp only [beq_iff_eq] at hpicks
    rwa [g.incoming_eq]
  lookup key := by
    rw [g.lookup_eq_filter]
    refine ⟨h.nodup_nodeList.filter _, fun n => ?_⟩
    rw [mem_filter, h.mem_nodeList, contains_iff_mem]

end Graph.Shows

/-! ### Edges as they are joined -/

theorem Contributions.edge?_eq_join (t : Contributions κ) (id : EdgeId) :
    t.edge? id = Edge.join (t.parts id).values := by
  rw [edge?]
  cases (t.parts id).values <;> rfl

theorem Contributions.edge?_of_none {id : EdgeId} (h : t.edge? id = none) {p : String}
    {c : Contribution κ} (hc : t[p]? = some c) : c.edge? id = none := by
  cases hd : c.edge? id with
  | none => rfl
  | some d =>
    have hmem : d ∈ (t.parts id).values := Graph.Shows.mem_parts.mpr ⟨p, c, hc, hd⟩
    rw [edge?_eq_join] at h
    cases hparts : (t.parts id).values with
    | nil => rw [hparts] at hmem; cases hmem
    | cons _ _ => rw [hparts] at h; exact absurd h (by simp [Edge.join])

section

variable (hsound : ∀ (p : String) (c : Contribution κ), t[p]? = some c → c.IsSound) {id : EdgeId}

include hsound

theorem Contributions.isUnit_of_mem_parts
    {d : Edge κ} (hd : d ∈ (t.parts id).values) : Confidence.isUnit d.confidence := by
  obtain ⟨p, c, hc, hcd⟩ := Graph.Shows.mem_parts.mp hd
  exact ((hsound p c hc).edge (mem_of_find?_eq_some hcd)).2.1

theorem Contributions.isUnit_of_edge?
    {e : Edge κ} (he : t.edge? id = some e) : Confidence.isUnit e.confidence := by
  have hgreatest := Edge.greatest?_of_join ((t.edge?_eq_join id).symm.trans he)
  obtain ⟨d, hd, hde⟩ := mem_map.mp (Confidence.mem_of_greatest? hgreatest)
  rw [← hde]
  exact isUnit_of_mem_parts hsound hd

end

end AppAtlas
