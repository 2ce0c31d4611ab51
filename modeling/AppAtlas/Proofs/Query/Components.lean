import AppAtlas.Proofs.Query.Walks
import AppAtlas.Query.Cycles
import Mathlib.Logic.Relation

/-!
# Components

Cycles are sought component by component.  A component has the nodes that reach a node and are
reached from it, along edges of the kinds that a filter allows and not below its floor.  Nothing is
asked of the graph for this.  A node that is reached at all is reached by a walk that follows no
edge twice, so the number of edges is enough as a bound for the hops.

* `CycleReport.mem_components`: the components are the classes of linked nodes that can hold a
  cycle.
* `CycleReport.disjoint_components`: no node is in two of them.
-/

namespace AppAtlas

open List OrderedMap
open Std (ExtTreeMap)

variable {κ : Type} [Confidence κ] {g : Graph κ} {f : EdgeFilter κ} {u v w : NodeId}

/-! ### Links -/

structure Graph.Link (g : Graph κ) (f : EdgeFilter κ) (u : NodeId) (e : Edge κ) (v : NodeId) :
    Prop where
  edge : e ∈ g.edgeList
  kind : f.allowsKind e.kind = true
  floor : ¬e.confidence < f.minConfidence
  source : e.source = u
  target : e.target = v

/-- **An edge leads from one node to another**, of an allowed kind and not below the floor. -/
def Graph.Leads (g : Graph κ) (f : EdgeFilter κ) (u v : NodeId) : Prop :=
  ∃ e : Edge κ, g.Link f u e v

/-- **Two nodes that reach each other.** -/
def Graph.Linked (g : Graph κ) (f : EdgeFilter κ) (u v : NodeId) : Prop :=
  Relation.ReflTransGen (g.Leads f) u v ∧ Relation.ReflTransGen (g.Leads f) v u

namespace Graph.Linked

theorem refl (g : Graph κ) (f : EdgeFilter κ) (u : NodeId) : g.Linked f u u := ⟨.refl, .refl⟩

theorem symm (h : g.Linked f u v) : g.Linked f v u := ⟨h.2, h.1⟩

theorem trans (huv : g.Linked f u v) (hvw : g.Linked f v w) : g.Linked f u w :=
  ⟨huv.1.trans hvw.1, hvw.2.trans huv.2⟩

end Graph.Linked

namespace CycleReport

theorem mem_successors : v ∈ successors g f u ↔ g.Leads f u v := by
  simp only [successors, mem_sortedSet, mem_map, mem_filter, Graph.outgoing_eq,
    Graph.mem_edgesByKind, passes, beq_iff_eq, Bool.and_eq_true, Bool.not_eq_true',
    decide_eq_false_iff_not]
  constructor
  · rintro ⟨e, ⟨⟨he, hsource⟩, hkind, hfloor⟩, htarget⟩
    exact ⟨e, he, hkind, hfloor, hsource, htarget⟩
  · rintro ⟨e, he, hkind, hfloor, hsource, htarget⟩
    exact ⟨e, ⟨⟨he, hsource⟩, hkind, hfloor⟩, htarget⟩

theorem nodup_sortedSet (ids : List NodeId) : (sortedSet ids).Nodup := by
  refine (pairwise_sortedSet ids).imp ?_
  rintro a b hlt rfl
  have hself : compare a a = .eq := Std.ReflCmp.compare_self
  exact absurd (hself.symm.trans hlt) (by decide)

theorem mem_nodes : v ∈ nodes g f ↔ ∃ u, g.Leads f u v ∨ g.Leads f v u := by
  simp only [nodes, mem_sortedSet, mem_flatMap, mem_filter, passes, Bool.and_eq_true,
    Bool.not_eq_true', decide_eq_false_iff_not, mem_cons, not_mem_nil, or_false]
  constructor
  · rintro ⟨e, ⟨he, hkind, hfloor⟩, rfl | rfl⟩
    · exact ⟨e.target, .inr ⟨e, he, hkind, hfloor, rfl, rfl⟩⟩
    · exact ⟨e.source, .inl ⟨e, he, hkind, hfloor, rfl, rfl⟩⟩
  · rintro ⟨u, ⟨e, he⟩ | ⟨e, he⟩⟩
    · exact ⟨e, ⟨he.edge, he.kind, he.floor⟩, .inr he.target.symm⟩
    · exact ⟨e, ⟨he.edge, he.kind, he.floor⟩, .inl he.source.symm⟩

theorem mem_nodes_of_linked (hu : u ∈ nodes g f) (h : g.Linked f u v) : v ∈ nodes g f := by
  rcases h.1.cases_tail with rfl | ⟨w, -, hw⟩
  · exact hu
  · exact mem_nodes.mpr ⟨w, .inl hw⟩

/-! ### What a node reaches -/

theorem reflTransGen_iff_walk : Relation.ReflTransGen (g.Leads f) u v ↔
    ∃ es : List (Edge κ), Walk (g.Link f) u es v := by
  constructor
  · intro h
    induction h with
    | refl => exact ⟨[], .stay⟩
    | tail _ hleads ih =>
      obtain ⟨es, hwalk⟩ := ih
      obtain ⟨e, he⟩ := hleads
      exact ⟨es ++ [e], .step hwalk he⟩
  · rintro ⟨es, hwalk⟩
    induction hwalk with
    | stay => exact .refl
    | step _ he ih => exact ih.tail ⟨_, he⟩

/-- **What a node reaches**, in any number of hops. -/
theorem contains_reach : (reach g f u).contains v ↔ Relation.ReflTransGen (g.Leads f) u v := by
  have hnext : ∀ u v, v ∈ successors g f u ↔ ∃ e, g.Link f u e v :=
    fun u v => mem_successors
  rw [reflTransGen_iff_walk, reach, ExtTreeMap.contains_eq_isSome_getElem?,
    Option.isSome_iff_exists]
  constructor
  · rintro ⟨d, hd⟩
    obtain ⟨-, hdistance⟩ := (getElem?_distancesFrom _).mp hd
    obtain ⟨es, hwalk, -⟩ := (Walk.reaches_iff hnext).mp hdistance.1
    exact ⟨es, hwalk⟩
  · rintro ⟨es, hwalk⟩
    obtain ⟨short, -, hnodup, hshort⟩ := hwalk.exists_nodup fun _ _ _ hhop =>
      .inl ⟨hhop.source.symm, hhop.target.symm⟩
    have hlimit : short.length ≤ g.hopLimit := by
      refine g.length_edgeList ▸ (hnodup.subperm fun e he => ?_).length_le
      obtain ⟨u, v, hhop⟩ := hshort.exists_hop e he
      exact hhop.edge
    obtain ⟨d, hd, hdistance⟩ := IsDistance.exists_of_reaches
      ((Walk.reaches_iff hnext).mpr ⟨short, hshort, rfl⟩)
    exact ⟨d, (getElem?_distancesFrom _).mpr ⟨hd.trans hlimit, hdistance⟩⟩

/-! ### Components -/

def component (g : Graph κ) (f : EdgeFilter κ) (id : NodeId) : List NodeId :=
  (nodes g f).filter fun other => (reach g f id).contains other && (reach g f other).contains id

theorem components_eq (g : Graph κ) (f : EdgeFilter κ) : components g f =
      (distinctOn head? ((nodes g f).map (component g f))).filter (holdsCycle g f) := by
  rw [components, map_map]
  congr 3
  funext id
  simp only [Function.comp_apply, component, filter_map, map_map]
  exact map_id _

theorem mem_component : v ∈ component g f u ↔ v ∈ nodes g f ∧ g.Linked f u v := by
  rw [component, mem_filter, Bool.and_eq_true, contains_reach, contains_reach, Graph.Linked]

theorem nodup_component (g : Graph κ) (f : EdgeFilter κ) (u : NodeId) :
    (component g f u).Nodup := (nodup_sortedSet _).filter _

theorem component_eq_of_linked (h : g.Linked f u v) : component g f u = component g f v := by
  refine filter_congr fun w _ => ?_
  rw [Bool.eq_iff_iff, Bool.and_eq_true, Bool.and_eq_true, contains_reach, contains_reach,
    contains_reach, contains_reach]
  exact ⟨h.symm.trans, h.trans⟩

/-- **The components are the classes of linked nodes** that can hold a cycle. -/
theorem mem_components {c : List NodeId} :
    c ∈ components g f ↔ (∃ u ∈ nodes g f, component g f u = c) ∧ holdsCycle g f c := by
  rw [components_eq, mem_filter]
  refine and_congr_left fun _ => ?_
  constructor
  · exact fun h => mem_map.mp (mem_of_mem_distinctOn h)
  · rintro ⟨u, hu, rfl⟩
    refine mem_distinctOn (mem_map_of_mem hu) fun c hc hhead => ?_
    obtain ⟨w, -, rfl⟩ := mem_map.mp hc
    -- both are the component of their first node
    have hself : u ∈ component g f u := mem_component.mpr ⟨hu, .refl g f u⟩
    obtain ⟨v, hv⟩ := Option.isSome_iff_exists.mp
      (isSome_head?.mpr (ne_nil_of_mem hself))
    have huv := (mem_component.mp (mem_of_head? hv)).2
    have hwv := (mem_component.mp (mem_of_head? (hhead.trans hv))).2
    exact component_eq_of_linked (hwv.trans huv.symm)

/-- **No node is in two components.** -/
theorem disjoint_components (g : Graph κ) (f : EdgeFilter κ) :
    (components g f).Pairwise Disjoint := by
  have hkeys : (components g f).Pairwise fun c c' => c.head? ≠ c'.head? :=
    components_eq g f ▸ (pairwise_distinctOn head? _).filter _
  refine hkeys.imp_of_mem fun {c c'} hc hc' hne v hv hv' => hne ?_
  obtain ⟨⟨u, -, rfl⟩, -⟩ := mem_components.mp hc
  obtain ⟨⟨w, -, rfl⟩, -⟩ := mem_components.mp hc'
  rw [component_eq_of_linked ((mem_component.mp hv).2.trans (mem_component.mp hv').2.symm)]

end CycleReport

end AppAtlas
