import AppAtlas.Proofs.Confidence
import AppAtlas.Proofs.Document.Proper
import AppAtlas.Proofs.Store.Contributions

/-!
# Documents split into contributions

A document has nodes and edges in full and for each file only their identities.  Split back into
contributions, each file gets the document's node for an identity that it lists, and its own part of
the document's edge.

* `Document.exists_mem_ownPart`: the parts of an edge together have all its evidence.
* `Document.Proper.carries_contribution`: a proper document loses no node of an entry.
* `Document.Proper.entry_contribution`: an entry comes back from the contribution made of it.
-/

namespace AppAtlas

open List OrderedMap Contribution

theorem find?_filterMap_of_key {α β : Type} [DecidableEq α] {f : α → Option β} {key : β → α}
    (h : ∀ a b, f a = some b → key b = a) (as : List α) (a : α) :
    (as.filterMap f).find? (key · == a) = if a ∈ as then f a else none := by
  induction as with
  | nil => rfl
  | cons a' as ih =>
    by_cases ha : a' = a
    · subst ha
      rw [if_pos mem_cons_self]
      cases hf : f a' with
      | none =>
        rw [filterMap_cons_none hf, ih, hf, ite_self]
      | some b =>
        rw [filterMap_cons_some hf, find?_cons_of_pos (by simp [h a' b hf])]
    · simp only [mem_cons, Ne.symm ha, false_or]
      rw [← ih]
      cases hf : f a' with
      | none => rw [filterMap_cons_none hf]
      | some b =>
        rw [filterMap_cons_some hf, find?_cons_of_neg (by simp [h a' b hf, ha])]

/-! ### Entries -/

namespace Contribution

variable {κ : Type} {c : Contribution κ}

theorem mem_nodeIds_entry {id : NodeId} : id ∈ c.entry.nodeIds ↔ (c.node? id).isSome := by
  rw [entry, mem_sortedSet, mem_nodes_iff]

theorem mem_edgeIds_entry {id : EdgeId} : id ∈ c.entry.edgeIds ↔ (c.edge? id).isSome := by
  rw [entry, mem_sortedSet, mem_edges_iff]

theorem placeholders_entry_perm :
    c.entry.placeholders.Perm (distinctOn (·.id) c.placeholders) := mergeSort_perm _ _

theorem pairwise_placeholders_entry : c.entry.placeholders.Pairwise fun a b => a.id ≠ b.id :=
  (placeholders_entry_perm.pairwise_iff fun h => h.symm).mpr (pairwise_distinctOn _ _)

theorem find?_placeholders_entry (id : NodeId) :
    c.entry.placeholders.find? (·.id == id) = c.placeholder? id := by
  rw [find?_of_perm placeholders_entry_perm pairwise_placeholders_entry, find?_distinctOn,
    placeholder?]

theorem sorted_placeholders_entry :
    Node.sorted (distinctOn (·.id) c.entry.placeholders) = c.entry.placeholders := by
  rw [distinctOn_of_pairwise pairwise_placeholders_entry]
  exact mergeSort_of_pairwise (pairwise_mergeSort_key Node.id _)

end Contribution

/-! ### Contributions of entries -/

namespace Document

variable {κ : Type} {d : Document κ}

theorem node?_contribution (x : Entry) (id : NodeId) : (d.contribution x).node? id =
    if id ∈ x.nodeIds then d.nodes.find? (·.id == id) else none :=
  find?_filterMap_of_key (fun id n hn => by simpa using find?_some hn) x.nodeIds id

theorem edge?_contribution (x : Entry) (id : EdgeId) : (d.contribution x).edge? id =
    if id ∈ x.edgeIds then (d.edges.find? (·.id == id)).map (d.ownPart x.path) else none := by
  refine find?_filterMap_of_key (fun id e he => ?_) x.edgeIds id
  obtain ⟨e', he', rfl⟩ := Option.map_eq_some_iff.mp he
  show e'.id = id
  simpa using find?_some he'

theorem mem_edges_contribution {x : Entry} {e : Edge κ} (h : e ∈ (d.contribution x).edges) :
    ∃ e' ∈ d.edges, e'.id ∈ x.edgeIds ∧ e = d.ownPart x.path e' := by
  obtain ⟨id, hid, hmap⟩ := mem_filterMap.mp h
  obtain ⟨e', he', rfl⟩ := Option.map_eq_some_iff.mp hmap
  have hid' : e'.id = id := by simpa using find?_some he'
  exact ⟨e', mem_of_find?_eq_some he', hid' ▸ hid, rfl⟩

theorem mem_edgeOwners {id : EdgeId} {p : String} :
    p ∈ d.edgeOwners id ↔ ∃ x ∈ d.provenance, id ∈ x.edgeIds ∧ x.path = p := by
  simp [edgeOwners, and_assoc]

/-- The part of a path has the evidence of its own file, and the part of the first path also that of
no contributing file. -/
theorem mem_evidence_ownPart {e : Edge κ} {p : String} {v : Evidence} :
    v ∈ (d.ownPart p e).evidence ↔ v ∈ e.evidence ∧ (v.file = p ∨
      (sortedSet (d.edgeOwners e.id)).head? = some p ∧ v.file ∉ d.edgeOwners e.id) := by
  simp [ownPart, mem_filter, mem_sortedSet]

/-- **No evidence is lost in splitting an edge.** -/
theorem exists_mem_ownPart {e : Edge κ} {q : String} (hq : q ∈ d.edgeOwners e.id) {v : Evidence} :
    (∃ p ∈ d.edgeOwners e.id, v ∈ (d.ownPart p e).evidence) ↔ v ∈ e.evidence := by
  simp only [mem_evidence_ownPart]
  constructor
  · rintro ⟨p, -, hv, -⟩
    exact hv
  · intro hv
    by_cases hfile : v.file ∈ d.edgeOwners e.id
    · exact ⟨v.file, hfile, hv, .inl rfl⟩
    · have hin : q ∈ sortedSet (d.edgeOwners e.id) := mem_sortedSet.mpr hq
      cases howners : sortedSet (d.edgeOwners e.id) with
      | nil => rw [howners] at hin; cases hin
      | cons p owners =>
        have hp : p ∈ sortedSet (d.edgeOwners e.id) := by
          rw [howners]
          exact mem_cons_self
        exact ⟨p, mem_sortedSet.mp hp, hv, .inr ⟨rfl, hfile⟩⟩

section

variable [Confidence κ]

section

variable (h : d.Proper) {x : Entry} (hx : x ∈ d.provenance)

include h hx

theorem Proper.isSome_node?_contribution
    {id : NodeId} : ((d.contribution x).node? id).isSome ↔ id ∈ x.nodeIds := by
  rw [node?_contribution]
  by_cases hid : id ∈ x.nodeIds
  · obtain ⟨n, hn, hnid⟩ := hasNode_iff.mp ((h.entries x hx).1 id hid)
    simp only [hid, if_true, iff_true, find?_isSome, beq_iff_eq]
    exact ⟨n, hn, hnid⟩
  · simp [hid]

theorem Proper.isSome_edge?_contribution
    {id : EdgeId} : ((d.contribution x).edge? id).isSome ↔ id ∈ x.edgeIds := by
  rw [edge?_contribution]
  by_cases hid : id ∈ x.edgeIds
  · obtain ⟨e, he, heid⟩ := hasEdge_iff.mp ((h.entries x hx).2.1 id hid)
    simp only [hid, if_true, iff_true, Option.isSome_map, find?_isSome, beq_iff_eq]
    exact ⟨e, he, heid⟩
  · simp [hid]

theorem Proper.carries_contribution
    {id : NodeId} : (d.contribution x).carries id ↔ x.carries id := by
  have hstub : ((d.contribution x).placeholder? id).isSome ↔ ∃ n ∈ x.placeholders, n.id = id := by
    rw [placeholder?, find?_isSome]
    simp only [beq_iff_eq]
    rfl
  rw [carries, Bool.or_eq_true, h.isSome_node?_contribution hx, hstub,
    Entry.carries_iff]

end

/-- **A contribution made of an entry has that entry**, if the entry was made of a contribution. -/
theorem Proper.entry_contribution (h : d.Proper) {c : Contribution κ}
    (hc : c.entry ∈ d.provenance) : (d.contribution c.entry).entry = c.entry := by
  have hnodes : sortedSet ((d.contribution c.entry).nodes.map (·.id)) =
      sortedSet (c.nodes.map (·.id)) := by
    refine sortedSet_congr fun id => ?_
    rw [mem_nodes_iff, h.isSome_node?_contribution hc, mem_nodeIds_entry,
      mem_nodes_iff]
  have hedges : sortedSet ((d.contribution c.entry).edges.map (·.id)) =
      sortedSet (c.edges.map (·.id)) := by
    refine sortedSet_congr fun id => ?_
    rw [mem_edges_iff, h.isSome_edge?_contribution hc, mem_edgeIds_entry,
      mem_edges_iff]
  have hplaceholders : Node.sorted (distinctOn (·.id) (d.contribution c.entry).placeholders) =
      c.entry.placeholders := sorted_placeholders_entry
  rw [entry, hnodes, hedges, hplaceholders]
  rfl

theorem Proper.provenance_contribution (h : d.Proper) {c : Contribution κ}
    (hc : c.entry ∈ d.provenance) : (d.contribution c.entry).provenance = c.provenance := by
  have hentry := h.entry_contribution hc
  have hplaceholders : sortedSet ((d.contribution c.entry).placeholders.map (·.id)) =
      sortedSet (c.placeholders.map (·.id)) := by
    refine sortedSet_congr fun id => ?_
    rw [mem_placeholders_iff, mem_placeholders_iff,
      placeholder?, ← find?_placeholders_entry]
    rfl
  simp only [entry, Entry.mk.injEq] at hentry
  rw [Contribution.provenance, Contribution.provenance, hplaceholders, Provenance.mk.injEq]
  exact ⟨hentry.2.1, hentry.2.2.1, hentry.2.2.2.1, rfl, hentry.2.2.2.2.2⟩

end

end Document

end AppAtlas
