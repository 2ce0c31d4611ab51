import AppAtlas.Graph.Basic
import AppAtlas.Proofs.OrderedMap

/-!
# What contributions make

The contributions in force are a map from paths to contributions.  This file says, without ledger
and without history, which graph they make: `Contributions.node?` and `Contributions.edge?` read a
node or an edge off the map, and `Graph.Shows` says that a graph holds exactly what is read.

Everything is read through `collect`, the map of what each file says about one identity.  Two maps
of contributions that say the same about an identity give the same node or edge for it
(`collect_congr`), whatever else they hold.
-/

namespace AppAtlas

open List Std OrderedMap

variable {κ : Type}

/-! ### Parts of one contribution -/

namespace Contribution

variable {c : Contribution κ} {id : NodeId} {n : Node}

theorem mem_nodes_iff : id ∈ c.nodes.map (·.id) ↔ (c.node? id).isSome := by
  rw [node?, find?_isSome, mem_map]
  simp only [beq_iff_eq]

theorem mem_placeholders_iff : id ∈ c.placeholders.map (·.id) ↔ (c.placeholder? id).isSome := by
  rw [placeholder?, find?_isSome, mem_map]
  simp only [beq_iff_eq]

theorem mem_edges_iff {id : EdgeId} : id ∈ c.edges.map (·.id) ↔ (c.edge? id).isSome := by
  rw [edge?, find?_isSome, mem_map]
  simp only [beq_iff_eq]

theorem id_of_node? (h : c.node? id = some n) : n.id = id := by
  have := find?_some h
  simpa using this

theorem mem_of_node? (h : c.node? id = some n) : n ∈ c.nodes := mem_of_find?_eq_some h

theorem id_of_placeholder? (h : c.placeholder? id = some n) : n.id = id := by
  have := find?_some h
  simpa using this

theorem mem_of_placeholder?
    (h : c.placeholder? id = some n) : n ∈ c.placeholders := mem_of_find?_eq_some h

theorem id_of_edge? {id : EdgeId} {e : Edge κ} (h : c.edge? id = some e) : e.id = id := by
  have := find?_some h
  simpa using this

/-- **A contribution is identified** if its nodes have the identities that their signatures give,
and its placeholders are stubs. -/
structure Identified (c : Contribution κ) : Prop where
  nodes : ∀ n ∈ c.nodes, n.id = n.expectedId
  placeholders : ∀ n ∈ c.placeholders, n.isStub = true ∧ n.id = n.expectedId

theorem nodeFault?_eq_none_iff :
    (nodeFault? n : Option (Fault κ)) = none ↔ n.id = n.expectedId := by
  rw [nodeFault?]
  by_cases hid : n.id = n.expectedId <;> simp [hid]

theorem placeholderFault?_eq_none_iff :
    (placeholderFault? n : Option (Fault κ)) = none ↔ n.isStub ∧ n.id = n.expectedId := by
  rw [placeholderFault?]
  cases hstub : n.isStub <;> by_cases hid : n.id = n.expectedId <;> simp [hid]

section Faults

variable [Confidence κ] {c : Contribution κ}

theorem edgeFault?_eq_none_iff {e : Edge κ} :
    c.edgeFault? e = none ↔ e.id = EdgeId.of e.source e.target e.kind ∧
      Confidence.isUnit e.confidence ∧ c.carries e.source ∧ c.carries e.target := by
  rw [edgeFault?]
  by_cases hid : e.id = EdgeId.of e.source e.target e.kind
  · cases Confidence.isUnit e.confidence <;> cases c.carries e.source <;>
      cases c.carries e.target <;> simp [hid]
  · simp [hid]

/-- **A contribution is sound** if and only if it has a path, it is identified, and its edges have
the identities that their ends give and confidences, with both ends carried. -/
theorem isSound_iff : c.IsSound ↔ c.path ≠ "" ∧ c.Identified ∧
    ∀ e ∈ c.edges, e.id = EdgeId.of e.source e.target e.kind ∧
      Confidence.isUnit e.confidence ∧ c.carries e.source ∧ c.carries e.target := by
  have hparts : c.Identified ↔ (∀ n ∈ c.nodes, n.id = n.expectedId) ∧
      ∀ n ∈ c.placeholders, n.isStub ∧ n.id = n.expectedId :=
    ⟨fun h => ⟨h.nodes, h.placeholders⟩, fun h => ⟨h.1, h.2⟩⟩
  rw [IsSound, fault?, hparts]
  by_cases hpath : c.path = ""
  · simp [hpath]
  · rw [if_neg (by simpa using hpath)]
    simp only [Option.orElse_eq_orElse, Option.orElse_eq_or, Option.or_eq_none_iff,
      findSome?_eq_none_iff, nodeFault?_eq_none_iff, placeholderFault?_eq_none_iff,
      edgeFault?_eq_none_iff]
    exact ⟨fun h => ⟨hpath, ⟨h.1, h.2.1⟩, h.2.2⟩, fun h => ⟨h.2.1.1, h.2.1.2, h.2.2⟩⟩

/-- The edges of a sound contribution have the identities that their ends give and confidences, and
the contribution carries their ends. -/
theorem IsSound.edge (h : c.IsSound) {e : Edge κ} (he : e ∈ c.edges) :
    e.id = EdgeId.of e.source e.target e.kind ∧
      Confidence.isUnit e.confidence ∧ c.carries e.source ∧ c.carries e.target :=
  (isSound_iff.mp h).2.2 e he

theorem IsSound.identified (h : c.IsSound) : c.Identified := (isSound_iff.mp h).2.1

end Faults

end Contribution

/-! ### Contributions by path -/

/-- Contributions by path, at most one for each. -/
abbrev Contributions (κ : Type) := ExtTreeMap String (Contribution κ) compare

namespace Contributions

/-- What each file says, by path, of those that say something. -/
def collect {β : Type} (t : Contributions κ) (f : Contribution κ → Option β) :
    ExtTreeMap String β compare :=
  t.filterMap fun _ c => f c

def defining (t : Contributions κ) (id : NodeId) : ExtTreeMap String Node compare :=
  t.collect (·.node? id)

def standingIn (t : Contributions κ) (id : NodeId) : ExtTreeMap String Node compare :=
  t.collect (·.placeholder? id)

def parts (t : Contributions κ) (id : EdgeId) : ExtTreeMap String (Edge κ) compare :=
  t.collect (·.edge? id)

/-- The node of an identity: from the first path that defines it, or else the placeholder of the
first path that carries one. -/
def node? (t : Contributions κ) (id : NodeId) : Option Node :=
  (t.defining id).values.head?.or (t.standingIn id).values.head?

/-- The paths that define a node, if there are any. -/
def definers? (t : Contributions κ) (id : NodeId) : Option (ExtTreeSet String compare) :=
  if (t.defining id).isEmpty then none else some (ExtTreeSet.ofList (t.defining id).keys compare)

/-- The edge of an identity: what all paths say about it, joined in the order of the paths. -/
def edge? [Confidence κ] (t : Contributions κ) (id : EdgeId) : Option (Edge κ) :=
  match (t.parts id).values with
  | [] => none
  | first :: others => some (others.foldl Edge.merge first).settle

variable {β : Type} {t t' : Contributions κ} {f : Contribution κ → Option β}

@[simp] theorem getElem?_collect {p : String} : (t.collect f)[p]? = t[p]?.bind f := by
  rw [collect, ExtTreeMap.getElem?_filterMap']

theorem values_collect : (t.collect f).values = t.toList.filterMap fun e => f e.2 :=
  values_filterMap t fun _ c => f c

/-- **What is collected depends only on what each path says.** -/
theorem collect_congr (h : ∀ p : String, t[p]?.bind f = t'[p]?.bind f) :
    t.collect f = t'.collect f := by
  apply ExtTreeMap.ext_getElem?
  intro p
  rw [getElem?_collect, getElem?_collect, h p]

theorem collect_eq_empty_iff :
    t.collect f = ∅ ↔ ∀ (p : String) (c : Contribution κ), t[p]? = some c → f c = none := by
  constructor
  · intro h p c hc
    have := getElem?_collect (t := t) (f := f) (p := p)
    rw [h, hc, ExtTreeMap.getElem?_empty] at this
    exact this.symm
  · intro h
    apply ExtTreeMap.ext_getElem?
    intro p
    rw [getElem?_collect, ExtTreeMap.getElem?_empty]
    cases hc : t[p]? with
    | none => rfl
    | some c => exact h p c hc

theorem head?_collect_eq_some_iff {b : β} : (t.collect f).values.head? = some b ↔
      ∃ (p : String) (c : Contribution κ), t[p]? = some c ∧ f c = some b ∧
        ∀ (p' : String) (c' : Contribution κ), t[p']? = some c' → (f c').isSome →
          (compare p p').isLE := by
  rw [head?_values_eq_some_iff]
  constructor
  · rintro ⟨p, hp, hleast⟩
    rw [getElem?_collect, Option.bind_eq_some_iff] at hp
    obtain ⟨c, hc, hb⟩ := hp
    refine ⟨p, c, hc, hb, fun p' c' hc' hsome => ?_⟩
    obtain ⟨b', hb'⟩ := Option.isSome_iff_exists.mp hsome
    exact hleast p' b' (by rw [getElem?_collect, hc', Option.bind_some, hb'])
  · rintro ⟨p, c, hc, hb, hleast⟩
    refine ⟨p, by rw [getElem?_collect, hc, Option.bind_some, hb], fun p' b' hp' => ?_⟩
    rw [getElem?_collect, Option.bind_eq_some_iff] at hp'
    obtain ⟨c', hc', hb'⟩ := hp'
    exact hleast p' c' hc' (by rw [hb']; rfl)

theorem head?_collect_eq_none_iff : (t.collect f).values.head? = none ↔
      ∀ (p : String) (c : Contribution κ), t[p]? = some c → f c = none := by
  rw [head?_values_eq_none_iff]
  constructor
  · intro h p c hc
    have := h p
    rwa [getElem?_collect, hc] at this
  · intro h p
    rw [getElem?_collect]
    cases hc : t[p]? with
    | none => rfl
    | some c => exact h p c hc

theorem exists_of_node? {id : NodeId} {n : Node} (h : t.node? id = some n) :
    ∃ (p : String) (c : Contribution κ), t[p]? = some c ∧
      (c.node? id = some n ∨ c.placeholder? id = some n) := by
  rw [node?, Option.or_eq_some_iff] at h
  rcases h with h | ⟨-, h⟩
  · obtain ⟨p, c, hc, hn, -⟩ := head?_collect_eq_some_iff.mp h
    exact ⟨p, c, hc, .inl hn⟩
  · obtain ⟨p, c, hc, hn, -⟩ := head?_collect_eq_some_iff.mp h
    exact ⟨p, c, hc, .inr hn⟩

theorem id_of_node? {id : NodeId} {n : Node} (h : t.node? id = some n) : n.id = id := by
  obtain ⟨p, c, -, hn | hn⟩ := exists_of_node? h
  · exact Contribution.id_of_node? hn
  · exact Contribution.id_of_placeholder? hn

/-! ### Paths and keys -/

/-- Contributions stand under their own paths, and `owner` tells from a version of a file which path
it is of. -/
def Keyed (owner : FileKey → String) (t : Contributions κ) : Prop :=
  ∀ (p : String) (c : Contribution κ), t[p]? = some c → c.path = p ∧ owner c.key = p

variable {owner : FileKey → String}

theorem keyed_empty : Keyed owner (∅ : Contributions κ) := by
  intro p c hc
  rw [ExtTreeMap.getElem?_empty] at hc
  cases hc

theorem Keyed.erase (h : Keyed owner t) (p : String) : Keyed owner (t.erase p) :=
  forall_erase h p

theorem Keyed.insert (h : Keyed owner t) {c : Contribution κ} (hc : owner c.key = c.path) :
    Keyed owner (t.insert c.path c) :=
  forall_insert h ⟨rfl, hc⟩

theorem Keyed.owner_eq (h : Keyed owner t) {c : Contribution κ} (hc : c ∈ t.values) :
    owner c.key = c.path := by
  obtain ⟨p, hp⟩ := mem_values.mp hc
  rw [(h p c hp).1, (h p c hp).2]

theorem Keyed.eq_of_key (h : Keyed owner t) {p q : String} {c c' : Contribution κ}
    (hp : t[p]? = some c) (hq : t[q]? = some c') (hk : c.key = c'.key) : p = q ∧ c = c' := by
  have hpq : p = q := by rw [← (h p c hp).2, ← (h q c' hq).2, hk]
  subst hpq
  exact ⟨rfl, Option.some.inj (hp.symm.trans hq)⟩

end Contributions

/-! ### Graphs -/

/-- **A graph shows contributions** if it holds what they make and nothing else.  Versions are left
open: which graph version introduced a node is a matter of history. -/
structure Graph.Shows [Confidence κ] (g : Graph κ) (t : Contributions κ) : Prop where
  nodes : ∀ id : NodeId, g.nodes[id]? = t.node? id
  edges : ∀ id : EdgeId, g.edges[id]? = t.edge? id
  definers : ∀ id : NodeId, g.definers[id]? = t.definers? id
  files : ∀ p : String, g.files[p]? = t[p]?.map (·.key)
  provenance : ∀ (k : FileKey) (v : Provenance), g.provenance[k]? = some v ↔
    ∃ (p : String) (c : Contribution κ), t[p]? = some c ∧ c.key = k ∧ c.provenance = v

end AppAtlas
