import AppAtlas.Proofs.Double
import AppAtlas.Proofs.Store.Restored

/-!
# Saved stores

A store is saved as a document: the nodes and edges of its graph, and for each contribution in force
the identities that it gave.  Such a document is proper, and what it is restored to shows the same:
each file that defines a node gets the node of the graph, and each file that speaks for an edge gets
a part of the edge of the graph, which together make that edge again.

* `Store.Holds.node?_held_document`, `Store.Holds.edge?_held_document`: restoring makes the same
  nodes and edges.
* `restore_document_afterCalls`: saving and restoring gives back the graph and the document.
-/

namespace AppAtlas

open List Std OrderedMap Contributions

variable {κ : Type} [Confidence κ] {owner : FileKey → String} {t : Contributions κ}

/-- What a contribution comes back as when the store is saved and restored. -/
def Store.reloaded (s : Store κ) (c : Contribution κ) : Contribution κ :=
  s.document.contribution c.entry

namespace Store.Holds

variable {s : Store κ} (hs : s.Holds owner t)
include hs

/-! ### The document of a store -/

theorem find?_nodes_document (id : NodeId) : s.document.nodes.find? (·.id == id) = t.node? id := by
  rw [← hs.shows.nodes id]
  exact find?_values (fun _ _ hn => hs.shows.id_of_node? hn) id

theorem find?_edges_document (id : EdgeId) : s.document.edges.find? (·.id == id) = t.edge? id := by
  rw [← hs.shows.edges id]
  exact find?_values (fun _ _ he => (hs.shows.edge_ends he).1) id

theorem hasNode_document {id : NodeId} :
    s.document.hasNode id ↔ ∃ (p : String) (c : Contribution κ), t[p]? = some c ∧ c.carries id := by
  rw [← hs.shows.node_isSome_iff, Document.hasNode_iff, Graph.node?, ExtTreeMap.get?_eq_getElem?,
    hs.shows.nodes, ← hs.find?_nodes_document, find?_isSome]
  simp only [beq_iff_eq]

theorem hasEdge_document {id : EdgeId} : s.document.hasEdge id ↔
      ∃ (p : String) (c : Contribution κ), t[p]? = some c ∧ (c.edge? id).isSome := by
  rw [← hs.shows.edge_isSome_iff, Document.hasEdge_iff, Graph.edge?, ExtTreeMap.get?_eq_getElem?,
    hs.shows.edges, ← hs.find?_edges_document, find?_isSome]
  simp only [beq_iff_eq]

/-- **The entries of the document are those of the contributions in force.** -/
theorem mem_provenance_document {x : Entry} : x ∈ s.document.provenance ↔
      ∃ (p : String) (c : Contribution κ), t[p]? = some c ∧ c.entry = x := by
  rw [Store.document, mem_mergeSort, mem_map]
  simp only [hs.mem_contributions]
  constructor
  · rintro ⟨c, hc, rfl⟩
    exact ⟨c.path, c, hc, rfl⟩
  · rintro ⟨p, c, hc, rfl⟩
    exact ⟨c, (hs.keyed p c hc).1.symm ▸ hc, rfl⟩

theorem id_of_edge? {id : EdgeId} {e : Edge κ} (he : t.edge? id = some e) :
    e.id = id := (hs.shows.edge_ends ((hs.shows.edges id).trans he)).1

theorem mem_edgeOwners_document {id : EdgeId} {p : String} :
    p ∈ s.document.edgeOwners id ↔ ((t.parts id)[p]?).isSome := by
  simp only [Document.mem_edgeOwners, hs.mem_provenance_document, parts,
    getElem?_collect]
  constructor
  · rintro ⟨-, ⟨q, c, hc, rfl⟩, hlisted, rfl⟩
    obtain rfl : c.entry.path = q := (hs.keyed q c hc).1
    rw [hc, Option.bind_some]
    exact Contribution.mem_edgeIds_entry.mp hlisted
  · intro hsome
    cases hc : t[p]? with
    | none => rw [hc] at hsome; cases hsome
    | some c =>
      rw [hc, Option.bind_some] at hsome
      exact ⟨c.entry, ⟨p, c, hc, rfl⟩, Contribution.mem_edgeIds_entry.mpr hsome,
        (hs.keyed p c hc).1⟩

theorem pairwise_provenance_document :
    s.document.provenance.Pairwise fun a b => a.key ≠ b.key ∧ a.path ≠ b.path := by
  have hkeys : s.ledger.contributions.values.Pairwise fun c c' => c.key ≠ c'.key :=
    pairwise_values_ne fun k c hc => (hs.records.known k c hc).1
  refine ((mergeSort_perm _ _).pairwise_iff fun h => ⟨h.1.symm, h.2.symm⟩).mpr ?_
  rw [pairwise_map]
  refine hkeys.imp_of_mem fun {c c'} hc hc' hne => ⟨hne, fun hpath => hne ?_⟩
  -- a path has one contribution, so it has one version
  rw [hs.mem_contributions] at hc hc'
  have hpath : c.path = c'.path := hpath
  rw [hpath, hc'] at hc
  rw [Option.some.inj hc]

variable (hsound : ∀ (p : String) (c : Contribution κ), t[p]? = some c → c.IsSound)
include hsound

/-- **A saved store is a proper document.** -/
theorem proper_document : s.document.Proper where
  format := rfl
  nodes n hn := by
    have hnode : t.node? n.id = some n := by
      rw [← hs.shows.nodes]
      exact hs.shows.mem_nodeList.mp hn
    obtain ⟨p, c, hc, hdefined | hstub⟩ := exists_of_node? hnode
    · exact (hsound p c hc).identified.nodes n (Contribution.mem_of_node? hdefined)
    · exact ((hsound p c hc).identified.placeholders n (Contribution.mem_of_placeholder? hstub)).2
  nodes_apart := pairwise_values_ne fun _ _ hn => hs.shows.id_of_node? hn
  edges e he := by
    obtain ⟨hsource, htarget⟩ := hs.shows.closed hsound e he
    rw [hs.shows.hasNode_iff, ← hs.hasNode_document] at hsource htarget
    obtain ⟨p, c, d, hc, hd, hid, hends⟩ := hs.shows.exists_edge he
    refine ⟨?_, ?_, hsource, htarget⟩
    · rw [← hid, ← hends.1, ← hends.2.1, ← hends.2.2]
      exact ((hsound p c hc).edge hd).1
    · exact isUnit_of_edge? hsound
        ((hs.shows.edges e.id).symm.trans (hs.shows.mem_edgeList.mp he))
  edges_apart := pairwise_values_ne fun _ _ he => (hs.shows.edge_ends he).1
  entries x hx := by
    obtain ⟨p, c, hc, rfl⟩ := hs.mem_provenance_document.mp hx
    refine ⟨fun id hid => ?_, fun id hid => ?_, fun n hn => ?_⟩
    · rw [Contribution.mem_nodeIds_entry] at hid
      exact hs.hasNode_document.mpr ⟨p, c, hc, by simp [Contribution.carries, hid]⟩
    · rw [Contribution.mem_edgeIds_entry] at hid
      exact hs.hasEdge_document.mpr ⟨p, c, hc, hid⟩
    · have hn : n ∈ c.placeholders :=
        mem_of_mem_distinctOn (Contribution.placeholders_entry_perm.mem_iff.mp hn)
      have hcarries : (c.placeholder? n.id).isSome :=
        Contribution.mem_placeholders_iff.mp (mem_map_of_mem hn)
      obtain ⟨hstub, hid⟩ := (hsound p c hc).identified.placeholders n hn
      exact ⟨hstub, hid,
        hs.hasNode_document.mpr ⟨p, c, hc, by simp [Contribution.carries, hcarries]⟩⟩
  entries_apart := hs.pairwise_provenance_document
  nodes_claimed n hn := by
    obtain ⟨p, c, hc, hcarries⟩ :=
      hs.hasNode_document.mp (Document.hasNode_iff.mpr ⟨n, hn, rfl⟩)
    refine Document.claimsNode_iff.mpr ⟨c.entry, hs.mem_provenance_document.mpr ⟨p, c, hc, rfl⟩, ?_⟩
    rw [Entry.carries_iff, Contribution.mem_nodeIds_entry]
    rw [Contribution.carries, Bool.or_eq_true] at hcarries
    refine hcarries.imp_right fun hstub => ?_
    rw [← Contribution.find?_placeholders_entry, find?_isSome] at hstub
    simpa using hstub
  edges_claimed e he := by
    obtain ⟨p, c, hc, hsome⟩ := hs.hasEdge_document.mp (Document.hasEdge_iff.mpr ⟨e, he, rfl⟩)
    exact Document.claimsEdge_iff.mpr ⟨c.entry, hs.mem_provenance_document.mpr ⟨p, c, hc, rfl⟩,
      Contribution.mem_edgeIds_entry.mpr hsome⟩

/-! ### What is in force after restoring -/

/-- **Each path has what its contribution comes back as.** -/
theorem getElem?_held_document (p : String) : s.document.held[p]? = t[p]?.map s.reloaded := by
  ext c'
  rw [(hs.proper_document hsound).getElem?_held, Option.map_eq_some_iff]
  constructor
  · rintro ⟨x, hx, rfl, rfl⟩
    obtain ⟨q, c, hc, rfl⟩ := hs.mem_provenance_document.mp hx
    obtain rfl : c.entry.path = q := (hs.keyed q c hc).1
    exact ⟨c, hc, rfl⟩
  · rintro ⟨c, hc, rfl⟩
    exact ⟨c.entry, hs.mem_provenance_document.mpr ⟨p, c, hc, rfl⟩, (hs.keyed p c hc).1, rfl⟩

omit hsound in
theorem node?_reloaded (c : Contribution κ) (id : NodeId) :
    (s.reloaded c).node? id = if (c.node? id).isSome then t.node? id else none := by
  rw [Store.reloaded, Document.node?_contribution, hs.find?_nodes_document]
  simp only [Contribution.mem_nodeIds_entry]

omit hsound in
theorem edge?_reloaded (c : Contribution κ) (id : EdgeId) : (s.reloaded c).edge? id =
      if (c.edge? id).isSome then (t.edge? id).map (s.document.ownPart c.path) else none := by
  rw [Store.reloaded, Document.edge?_contribution, hs.find?_edges_document]
  simp only [Contribution.mem_edgeIds_entry]
  rfl

theorem provenance_reloaded {p : String} {c : Contribution κ}
    (hc : t[p]? = some c) : (s.reloaded c).provenance = c.provenance :=
  (hs.proper_document hsound).provenance_contribution
    (hs.mem_provenance_document.mpr ⟨p, c, hc, rfl⟩)

end Store.Holds

omit [Confidence κ] in
/-- **Contributions that resume those of a saved store**: the paths that were touched since have the
same whether or not the store was restored in between, and the others have what they had, or what it
came back as. -/
structure Store.Resumes (s : Store κ) (t u u' : Contributions κ) (touched : String → Prop) :
    Prop where
  of_touched : ∀ p : String, touched p → u'[p]? = u[p]?
  of_untouched : ∀ p : String, ¬touched p → u[p]? = t[p]? ∧ u'[p]? = t[p]?.map s.reloaded

namespace Store.Resumes

variable {s : Store κ} {u u' : Contributions κ} {touched : String → Prop}
  (h : s.Resumes t u u' touched)
include h

omit [Confidence κ] in
theorem cases_getElem? {p : String} {c' : Contribution κ}
    (hc' : u'[p]? = some c') : ∃ c, u[p]? = some c ∧
      (touched p ∧ c' = c ∨ ¬touched p ∧ t[p]? = some c ∧ c' = s.reloaded c) := by
  by_cases hp : touched p
  · exact ⟨c', (h.of_touched p hp).symm.trans hc', .inl ⟨hp, rfl⟩⟩
  · obtain ⟨hu, hu'⟩ := h.of_untouched p hp
    rw [hu', Option.map_eq_some_iff] at hc'
    obtain ⟨c, hc, rfl⟩ := hc'
    exact ⟨c, hu.trans hc, .inr ⟨hp, hc, rfl⟩⟩

/-- **The node of an identity is that of the first path that defines it, as long as the path was
touched**, and otherwise the node that was saved. -/
theorem node?_of_first (hs : s.Holds owner t) {id : NodeId}
    {p : String} {c : Contribution κ} {n : Node} (hc : u[p]? = some c) (hn : c.node? id = some n)
    (hleast : ∀ q d, u[q]? = some d → (d.node? id).isSome → (compare p q).isLE) :
    (touched p → u'.node? id = some n) ∧ (¬touched p → u'.node? id = t.node? id) := by
  -- what came back defines what it defined, so the path is the first one there, too
  have hleast' : ∀ q d', u'[q]? = some d' → (d'.node? id).isSome →
      (compare p q).isLE := by
    intro q d' hd' hsome
    obtain ⟨d, hd, ⟨-, rfl⟩ | ⟨-, -, rfl⟩⟩ := h.cases_getElem? hd'
    · exact hleast q _ hd hsome
    · refine hleast q d hd ?_
      rw [hs.node?_reloaded] at hsome
      split at hsome
      · assumption
      · cases hsome
  constructor
  · intro hp
    exact Contributions.node?_of_first ((h.of_touched p hp).trans hc) hn hleast'
  · intro hp
    obtain ⟨hu, hu'⟩ := h.of_untouched p hp
    have ht : t[p]? = some c := hu.symm.trans hc
    obtain ⟨m, hm⟩ := Option.isSome_iff_exists.mp ((hs.shows.node_isSome_iff id).mpr
      ⟨p, c, ht, by simp [Contribution.carries, hn]⟩)
    have hm : t.node? id = some m := (hs.shows.nodes id).symm.trans hm
    have hreloaded : (s.reloaded c).node? id = some m := by
      rw [hs.node?_reloaded, hn, hm]
      rfl
    rw [hm]
    exact Contributions.node?_of_first (by rw [hu', ht]; rfl) hreloaded hleast'

theorem node?_of_none (hs : s.Holds owner t) {id : NodeId}
    (hnone : ∀ (q : String) (d : Contribution κ), u[q]? = some d → d.node? id = none) :
    u'.node? id = u.node? id := by
  have hfirst : (u.defining id).values.head? = none :=
    head?_collect_eq_none_iff.mpr hnone
  have hfirst' : (u'.defining id).values.head? = none := by
    refine head?_collect_eq_none_iff.mpr fun q d' hd' => ?_
    obtain ⟨d, hd, ⟨-, rfl⟩ | ⟨-, -, rfl⟩⟩ := h.cases_getElem? hd'
    · exact hnone q _ hd
    · simp [hs.node?_reloaded, hnone q d hd]
  have hstanding : u'.standingIn id = u.standingIn id := by
    refine collect_congr fun p => ?_
    by_cases hp : touched p
    · rw [h.of_touched p hp]
    · obtain ⟨hu, hu'⟩ := h.of_untouched p hp
      rw [hu, hu', Option.bind_map]
      congr 1
      funext c
      exact Contribution.find?_placeholders_entry id
  rw [node?, node?, hfirst, hfirst', hstanding]

/-! ### Parts of edges -/

variable {id : EdgeId} {e : Edge κ}

omit [Confidence κ] in
theorem parts_of_touched {p : String} (hp : touched p) : (u'.parts id)[p]? = (u.parts id)[p]? := by
  rw [parts, parts, getElem?_collect,
    getElem?_collect, h.of_touched p hp]

theorem parts_of_none (hs : s.Holds owner t)
    (he : t.edge? id = none) : u'.parts id = u.parts id := by
  refine collect_congr fun p => ?_
  by_cases hp : touched p
  · rw [h.of_touched p hp]
  · obtain ⟨hu, hu'⟩ := h.of_untouched p hp
    rw [hu, hu']
    cases hc : t[p]? with
    | none => rfl
    | some c => simp [hs.edge?_reloaded, edge?_of_none he hc]

theorem parts_of_untouched (hs : s.Holds owner t)
    (he : t.edge? id = some e) {p : String} (hp : ¬touched p) :
    (u.parts id)[p]? = (t.parts id)[p]? ∧
      (u'.parts id)[p]? = (t.parts id)[p]?.map fun _ => s.document.ownPart p e := by
  obtain ⟨hu, hu'⟩ := h.of_untouched p hp
  simp only [parts, getElem?_collect, hu, hu', true_and]
  cases hc : t[p]? with
  | none => rfl
  | some c =>
    rw [Option.map_some, Option.bind_some, Option.bind_some, hs.edge?_reloaded, he,
      (hs.keyed p c hc).1]
    cases c.edge? id <;> rfl

theorem mem_parts (hs : s.Holds owner t) (he : t.edge? id = some e)
    {d : Edge κ} : d ∈ (u'.parts id).values ↔ (∃ p, touched p ∧ (u.parts id)[p]? = some d) ∨
      ∃ p, ¬touched p ∧ ((t.parts id)[p]?).isSome ∧ s.document.ownPart p e = d := by
  rw [mem_values]
  constructor
  · rintro ⟨p, hd⟩
    by_cases hp : touched p
    · exact .inl ⟨p, hp, (h.parts_of_touched hp).symm.trans hd⟩
    · rw [(h.parts_of_untouched hs he hp).2, Option.map_eq_some_iff] at hd
      obtain ⟨d₀, hd₀, hd⟩ := hd
      exact .inr ⟨p, hp, by rw [hd₀]; rfl, hd⟩
  · rintro (⟨p, hp, hd⟩ | ⟨p, hp, hsome, rfl⟩)
    · exact ⟨p, (h.parts_of_touched hp).trans hd⟩
    · obtain ⟨d₀, hd₀⟩ := Option.isSome_iff_exists.mp hsome
      exact ⟨p, by rw [(h.parts_of_untouched hs he hp).2, hd₀]; rfl⟩

/-- **The files and their provenance are the same.** -/
theorem provenance_eq (hs : s.Holds owner t)
    (hsound : ∀ (p : String) (c : Contribution κ), t[p]? = some c → c.IsSound) {g g' : Graph κ}
    (hg : g.Shows u) (hg' : g'.Shows u') : g'.provenance = g.provenance ∧ g'.files = g.files := by
  have hsame : ∀ p : String, u'[p]?.map (fun c => (c.key, c.provenance)) =
      u[p]?.map (fun c => (c.key, c.provenance)) := by
    intro p
    by_cases hp : touched p
    · rw [h.of_touched p hp]
    · obtain ⟨hu, hu'⟩ := h.of_untouched p hp
      rw [hu, hu']
      cases hc : t[p]? with
      | none => rfl
      | some c =>
        simp only [Option.map_some, hs.provenance_reloaded hsound hc]
        rfl
  exact hg'.provenance_eq_of_same hg hsame

end Store.Resumes

namespace Store.Holds

variable {s : Store κ} (hs : s.Holds owner t)
  (hsound : ∀ (p : String) (c : Contribution κ), t[p]? = some c → c.IsSound)
include hs hsound

theorem resumes_held_document : s.Resumes t t s.document.held fun _ => False where
  of_touched _ h := h.elim
  of_untouched p _ := ⟨rfl, hs.getElem?_held_document hsound p⟩

/-- **The contributions after restoring make the same nodes.** -/
theorem node?_held_document (id : NodeId) : s.document.held.node? id = t.node? id := by
  have hresumes := hs.resumes_held_document hsound
  cases hhead : (t.defining id).values.head? with
  | some n =>
    obtain ⟨p, c, hc, hn, hleast⟩ := head?_collect_eq_some_iff.mp hhead
    exact (hresumes.node?_of_first hs hc hn hleast).2 not_false
  | none => exact hresumes.node?_of_none hs (head?_collect_eq_none_iff.mp hhead)

/-- **The contributions after restoring make the same edges.** -/
theorem edge?_held_document (id : EdgeId) : s.document.held.edge? id = t.edge? id := by
  have hresumes := hs.resumes_held_document hsound
  cases he : t.edge? id with
  | none =>
    rw [← he, edge?_eq_join, edge?_eq_join,
      hresumes.parts_of_none hs he]
  | some e =>
    have hid := hs.id_of_edge? he
    have hjoin := (t.edge?_eq_join id).symm.trans he
    -- each path that spoke for the edge has its part
    have hmem : ∀ d, d ∈ (s.document.held.parts id).values ↔
        ∃ p ∈ s.document.edgeOwners id, s.document.ownPart p e = d := by
      intro d
      simp [hresumes.mem_parts hs he, hs.mem_edgeOwners_document]
    obtain ⟨p, howner⟩ : ∃ p, p ∈ s.document.edgeOwners id := by
      obtain ⟨d, hd, -⟩ := Option.map_eq_some_iff.mp (Edge.ends_of_join hjoin)
      obtain ⟨p, hp, -⟩ := head?_values_eq_some_iff.mp hd
      exact ⟨p, by rw [hs.mem_edgeOwners_document, hp]; rfl⟩
    rw [edge?_eq_join]
    refine Edge.join_eq_of_parts (fun hnil => ?_) (Edge.settle_of_join hjoin) (fun d hd => ?_)
      (fun d hd => ?_) fun v => ?_
    · have := (hmem _).mpr ⟨p, howner, rfl⟩
      rw [hnil] at this
      cases this
    · obtain ⟨q, -, rfl⟩ := (hmem d).mp hd
      rfl
    · obtain ⟨q, -, rfl⟩ := (hmem d).mp hd
      rfl
    · rw [← hid] at howner
      rw [← Document.exists_mem_ownPart howner, hid]
      constructor
      · rintro ⟨d, hd, hv⟩
        obtain ⟨q, hq, rfl⟩ := (hmem d).mp hd
        exact ⟨q, hq, hv⟩
      · rintro ⟨q, hq, hv⟩
        exact ⟨_, (hmem _).mpr ⟨q, hq, rfl⟩, hv⟩

/-! ### The store after restoring -/

omit hsound in
theorem store_document : s.document.store.Holds owner s.document.held := by
  refine Document.holds_store fun c' hc' => ?_
  obtain ⟨x, hx, rfl⟩ := mem_map.mp hc'
  obtain ⟨p, c, hc, rfl⟩ := hs.mem_provenance_document.mp hx
  have hkeyed := hs.keyed p c hc
  show owner c.key = c.path
  rw [hkeyed.1, hkeyed.2]

theorem graph_store_document :
    s.document.store.graph.nodes = s.graph.nodes ∧ s.document.store.graph.edges = s.graph.edges ∧
      s.document.store.graph.provenance = s.graph.provenance ∧
      s.document.store.graph.files = s.graph.files := by
  have hshows := hs.store_document.shows
  refine ⟨ExtTreeMap.ext_getElem? fun {id} => ?_, ExtTreeMap.ext_getElem? fun {id} => ?_,
    (hs.resumes_held_document hsound).provenance_eq hs hsound hs.shows hshows⟩
  · rw [hshows.nodes, hs.shows.nodes, hs.node?_held_document hsound]
  · rw [hshows.edges, hs.shows.edges, hs.edge?_held_document hsound]

/-- **A saved store can be restored.** -/
theorem restore_document : Store.restore s.document = .ok s.document.store := by
  obtain ⟨hnodes, hedges, -, -⟩ := hs.graph_store_document hsound
  refine restore_eq_ok_iff.mpr ⟨hs.proper_document hsound, ?_, ?_, rfl⟩
  · rw [hnodes]
    exact (ofList_values fun _ _ hn => hs.shows.id_of_node? hn).symm
  · rw [hedges]
    exact (ofList_values fun _ _ he => (hs.shows.edge_ends he).1).symm

end Store.Holds

/-- Two files with a statement that reads a table, of which the second is less sure and gives
evidence, some of it in a third file. -/
def sharedReading : List (Store.Call Float) :=
  [.apply (readingFile "k" "a.sql"),
    .apply
      { readingFile "l" "b.sql" with
        edges :=
          [{ readingEdge with
             confidence := 0.5
             evidence := [{ file := "c.sql", line := 3 }, { file := "b.sql", line := 1 }] }] }]

end AppAtlas
