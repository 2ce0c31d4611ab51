import AppAtlas.Proofs.Store.Published

/-!
# The edges of published graphs

Whatever happens to a store, its edges stand under their own identities and have confidences.  Like
the soundness of nodes this needs nothing of the versions of files.

* `Store.Published.weighed`: the edges of published graphs have confidences.
-/

namespace AppAtlas

open List Std OrderedMap

variable {κ : Type} [Confidence κ]

def Graph.Weighed (g : Graph κ) : Prop :=
  ∀ (id : EdgeId) (e : Edge κ), g.edges[id]? = some e →
    e.id = id ∧ Confidence.isUnit e.confidence = true

def Ledger.Weighed (l : Ledger κ) : Prop := l.Each Contribution.Weighed

namespace Ledger

variable {l : Ledger κ}

theorem Weighed.edgeParts (h : l.Weighed) {id : EdgeId} {e : Edge κ} (he : e ∈ l.edgeParts id) :
    e.id = id ∧ Confidence.isUnit e.confidence := by
  obtain ⟨k, -, hk⟩ := mem_filterMap.mp he
  obtain ⟨c, hc, hce⟩ := Option.bind_eq_some_iff.mp hk
  exact ⟨Contribution.id_of_edge? hce, h k c hc e (mem_of_find?_eq_some hce)⟩

theorem Weighed.edge? (h : l.Weighed) {id : EdgeId} {e : Edge κ} (he : l.edge? id = some e) :
    e.id = id ∧ Confidence.isUnit e.confidence := by
  rw [Ledger.edge?] at he
  split at he
  · cases he
  · next first others hparts =>
    cases he
    have hpart : ∀ d ∈ first :: others, d.id = id ∧ Confidence.isUnit d.confidence :=
      fun d hd => h.edgeParts (hparts ▸ hd)
    have hmem := Confidence.foldl_max_mem (others.map (·.confidence)) first.confidence
    rw [← Edge.foldl_merge_confidence, ← map_cons (f := Edge.confidence)] at hmem
    obtain ⟨d, hd, hconfidence⟩ := mem_map.mp hmem
    refine ⟨(Edge.foldl_merge_ends others first).1.trans (hpart first mem_cons_self).1, ?_⟩
    show Confidence.isUnit (others.foldl Edge.merge first).confidence
    rw [← hconfidence]
    exact (hpart d hd).2

theorem Weighed.refreshEdges (h : l.Weighed) {g : Graph κ} (hg : g.Weighed)
    (ids : List EdgeId) : (ids.foldl l.refreshEdge g).Weighed := by
  induction ids generalizing g with
  | nil => exact hg
  | cons id ids ih =>
    refine ih ?_
    rw [refreshEdge]
    cases he : l.edge? id with
    | none => exact forall_erase hg id
    | some e => exact forall_insert hg ⟨rfl, (h.edge? he).2⟩

end Ledger

theorem Batch.weighed_graph {b : Batch κ} (h : b.ledger.Weighed) {base : Graph κ}
    (hg : base.Weighed) : (b.graph base).Weighed := by
  rw [Batch.graph, Ledger.refreshProvenances_frame, Graph.dropProvenances_frame]
  refine h.refreshEdges ?_ b.edges.toList
  rw [Graph.Weighed, (Ledger.refreshNodes_frame _ _ _).2.1]
  exact hg

/-- **The edges of the graphs that stores publish have confidences.** -/
theorem Store.Published.weighed {s : Store κ} (h : s.Published) : s.graph.Weighed := by
  have hkept : CommitsKeep fun (l : Ledger κ) g => l.Weighed ∧ g.Weighed := by
    refine ⟨⟨Ledger.each_empty 0, fun id e he => ?_⟩, fun removed hs hc => Ledger.Each.commit
      hs.1 hs.2 (fun _ hb => Batch.weighed_graph hb hs.2) (fun c hmem => (hc c hmem).2) removed,
      fun _ _ _ hs => hs⟩
    simp [Graph.empty] at he
  exact (hkept.published h).2

end AppAtlas
