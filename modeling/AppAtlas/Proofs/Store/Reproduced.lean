import AppAtlas.Proofs.Store.Saved

/-!
# Documents that are reproduced

Whatever a document says, restoring it either fails or gives a store that is saved as that document
again.  The checks are on identities only, so it is the comparison after splitting the document into
contributions that keeps out a document whose evidence, confidences or placeholders are not what its
entries make.  What may differ is the order of the lists, and within an entry repetitions.

* `Document.Proper.reproduces_iff`: a proper document is reproduced if and only if its contributions
  make its nodes and edges.
* `restore_reproduces_or_leaves`: what restoring does to a store.
-/

namespace AppAtlas

open Std OrderedMap

/-! ### The same document -/

/-- An entry with its identities in order and each once, and of several placeholders for one
identity the first. -/
def Entry.normal (x : Entry) : Entry :=
  { x with
    nodeIds := sortedSet x.nodeIds
    edgeIds := sortedSet x.edgeIds
    placeholders := Node.sorted (distinctOn (·.id) x.placeholders) }

variable {κ : Type}

/-- **A document that is the same as another**, up to the time of saving, the order of the lists,
and order and repetitions within the entries of the other. -/
structure Document.Reproduces (d' d : Document κ) : Prop where
  format : d'.format = d.format
  version : d'.version = d.version
  nodes : d'.nodes.Perm d.nodes
  edges : d'.edges.Perm d.edges
  provenance : d'.provenance.Perm (d.provenance.map Entry.normal)

variable [Confidence κ] {d : Document κ}

namespace Document

theorem Proper.entry_contribution_of_mem (h : d.Proper) {x : Entry} (hx : x ∈ d.provenance) :
    (d.contribution x).entry = x.normal := by
  have hnodes : sortedSet ((d.contribution x).nodes.map (·.id)) = sortedSet x.nodeIds :=
    sortedSet_congr fun id => by
      rw [Contribution.mem_nodes_iff, h.isSome_node?_contribution hx]
  have hedges : sortedSet ((d.contribution x).edges.map (·.id)) = sortedSet x.edgeIds :=
    sortedSet_congr fun id => by
      rw [Contribution.mem_edges_iff, h.isSome_edge?_contribution hx]
  rw [Contribution.entry, hnodes, hedges]
  rfl

/-- **All entries of a proper document come back**, in normal form. -/
theorem Proper.provenance_store (h : d.Proper) :
    d.store.document.provenance.Perm (d.provenance.map Entry.normal) := by
  obtain ⟨owner, howner⟩ := h.exists_owner
  have hholds := holds_store howner
  have hapart : (d.provenance.map Entry.normal).Pairwise fun a b => a.key ≠ b.key :=
    List.pairwise_map.mpr (h.entries_apart.imp fun hne => hne.1)
  have hapart' := hholds.pairwise_provenance_document.imp fun hne => hne.1
  refine (List.perm_ext_iff_of_nodup (nodup_of_pairwise_key hapart')
    (nodup_of_pairwise_key hapart)).mpr fun y => ?_
  rw [hholds.mem_provenance_document, List.mem_map]
  constructor
  · rintro ⟨p, c, hc, rfl⟩
    obtain ⟨x, hx, -, rfl⟩ := h.getElem?_held.mp hc
    exact ⟨x, hx, (h.entry_contribution_of_mem hx).symm⟩
  · rintro ⟨x, hx, rfl⟩
    exact ⟨x.path, _, h.getElem?_held.mpr ⟨x, hx, rfl, rfl⟩, h.entry_contribution_of_mem hx⟩

/-- **A proper document is reproduced if and only if its contributions make its nodes and
edges.** -/
theorem Proper.reproduces_iff (h : d.Proper) : d.store.document.Reproduces d ↔
    d.store.graph.nodes = ExtTreeMap.ofList (d.nodes.map fun n => (n.id, n)) compare ∧
      d.store.graph.edges = ExtTreeMap.ofList (d.edges.map fun e => (e.id, e)) compare := by
  obtain ⟨owner, howner⟩ := h.exists_owner
  have hshows := (holds_store howner).shows
  rw [eq_ofList_iff_perm (fun _ _ hn => hshows.id_of_node? hn) h.nodes_apart,
    eq_ofList_iff_perm (fun _ _ he => (hshows.edge_ends he).1) h.edges_apart]
  constructor
  · exact fun hsame => ⟨hsame.nodes, hsame.edges⟩
  · exact fun ⟨hnodes, hedges⟩ => ⟨h.format.symm, rfl, hnodes, hedges, h.provenance_store⟩

end Document

/-! ### Restoring -/

/-- **Restoring a document reproduces it or leaves the store as it was.**  A document is accepted if
and only if it is proper and the store made of it is saved as the same document again; otherwise
there is an error, and the store that the call worked on is the one before. -/
theorem restore_reproduces_or_leaves (s : Store κ) (d : Document κ) :
    (∃ s' : Store κ, Store.Action.restore d s = .ok s'.graph s' ∧ Store.restore d = .ok s' ∧
      d.Proper ∧ s'.document.Reproduces d) ∨
    ∃ e : SaveError κ, Store.Action.restore d s = .error e s ∧ Store.restore d = .error e ∧
      ¬(d.Proper ∧ d.store.document.Reproduces d) := by
  have hcall := Store.Action.restore_eq d s
  have hrestore := Store.restore_eq_elim d
  cases hr : d.refusal? with
  | none =>
    rw [hr] at hcall hrestore
    obtain ⟨hproper, hnodes, hedges, -⟩ := Store.restore_eq_ok_iff.mp hrestore
    exact Or.inl ⟨d.store, hcall, hrestore, hproper, hproper.reproduces_iff.mpr ⟨hnodes, hedges⟩⟩
  | some e =>
    rw [hr] at hcall hrestore
    refine Or.inr ⟨e, hcall, hrestore, ?_⟩
    rintro ⟨hproper, hsame⟩
    obtain ⟨hnodes, hedges⟩ := hproper.reproduces_iff.mp hsame
    rw [Store.restore_eq_ok_iff.mpr ⟨hproper, hnodes, hedges, rfl⟩] at hrestore
    cases hrestore

end AppAtlas
