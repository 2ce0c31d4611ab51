import AppAtlas.Proofs.Query.Impact
import AppAtlas.Proofs.Store.Closed
import Mathlib.Order.Bounds.Basic

/-!
# Searches with and without a bound

An impact is found in one of two ways, rounds if there is a bound on the hops and settling if there
is none.  Both find the greatest confidences of the walks that count.  A walk that comes back to a
node can be cut there, which makes it shorter and does not lower its confidence.  So no walk needs
more hops than there are places to be, and a bound from that number on is no bound.

The places are the nodes of the graph and the ends of its edges.  In a closed graph these are the
nodes.  A store can publish a graph that is not closed, and then a bound by the number of nodes cuts
walks off.

* `impact_confidence_greatest_and_bound_immaterial`: what an impact is, and when the bound matters.
* `bound_by_nodes_cuts_dangling_walk`: a published graph with a bound by its nodes that matters.
-/

namespace AppAtlas

open List OrderedMap
open Std (ExtTreeMap ExtTreeSet)

variable {κ : Type}

/-! ### Walks that visit no node twice -/

/-- A walk along some edges, with the nodes it visits. -/
inductive Trail (hop : NodeId → Edge κ → NodeId → Prop) (a : NodeId) :
    List (Edge κ) → List NodeId → NodeId → Prop
  | stay : Trail hop a [] [a] a
  | step {es : List (Edge κ)} {vs : List NodeId} {u v : NodeId} {e : Edge κ}
    (ht : Trail hop a es vs u) (he : hop u e v) : Trail hop a (es ++ [e]) (vs ++ [v]) v

namespace Trail

variable {hop : NodeId → Edge κ → NodeId → Prop} {a b v : NodeId} {es : List (Edge κ)}
  {vs : List NodeId}

theorem walk (h : Trail hop a es vs b) : Walk hop a es b := by
  induction h with
  | stay => exact .stay
  | step _ he ih => exact .step ih he

theorem length_eq (h : Trail hop a es vs b) : vs.length = es.length + 1 := by
  induction h with
  | stay => rfl
  | step _ _ ih => rw [length_append, length_append, ih, length_singleton,
      length_singleton]

theorem exists_cut (h : Trail hop a es vs b) (hv : v ∈ vs) :
    ∃ es' vs', es'.Sublist es ∧ vs'.Sublist vs ∧ Trail hop a es' vs' v := by
  induction h with
  | stay =>
    obtain rfl := mem_singleton.mp hv
    exact ⟨[], [v], Sublist.refl _, Sublist.refl _, .stay⟩
  | @step es vs u w e ht he ih =>
    rcases mem_append.mp hv with hv | hv
    · obtain ⟨es', vs', hes, hvs, hcut⟩ := ih hv
      exact ⟨es', vs', hes.trans (sublist_append_left es [e]),
        hvs.trans (sublist_append_left vs [w]), hcut⟩
    · obtain rfl := mem_singleton.mp hv
      exact ⟨es ++ [e], vs ++ [v], Sublist.refl _, Sublist.refl _, .step ht he⟩

theorem subset {places : List NodeId} (h : Trail hop a es vs b) (ha : a ∈ places)
    (hhop : ∀ u e v, hop u e v → v ∈ places) : vs ⊆ places := by
  induction h with
  | stay => simpa using ha
  | step _ he ih => exact append_subset.mpr ⟨ih, by simpa using hhop _ _ _ he⟩

end Trail

namespace Walk

variable {hop : NodeId → Edge κ → NodeId → Prop} {a b : NodeId} {es : List (Edge κ)}

theorem exists_trail (h : Walk hop a es b) : ∃ es' vs, es'.Sublist es ∧ vs.Nodup ∧
      Trail hop a es' vs b := by
  induction h with
  | stay => exact ⟨[], [a], Sublist.refl _, nodup_singleton a, .stay⟩
  | @step es u v e _ he ih =>
    obtain ⟨short, vs, hsub, hnodup, htrail⟩ := ih
    by_cases hv : v ∈ vs
    · -- the walk has been at `v` before, and what came after is left out
      obtain ⟨es', vs', hes, hvs, hcut⟩ := htrail.exists_cut hv
      exact ⟨es', vs', (hes.trans hsub).trans (sublist_append_left es [e]),
        hnodup.sublist hvs, hcut⟩
    · refine ⟨short ++ [e], vs ++ [v], hsub.append_right [e], ?_, .step htrail he⟩
      exact nodup_append.mpr ⟨hnodup, nodup_singleton v, fun x hx y hy hxy =>
        hv (mem_singleton.mp hy ▸ hxy ▸ hx)⟩

/-- **A walk can be shortened to fewer hops than there are places to be.** -/
theorem exists_short {places : List NodeId} (h : Walk hop a es b) (ha : a ∈ places)
    (hhop : ∀ u e v, hop u e v → v ∈ places) :
    ∃ es' : List (Edge κ), es'.Sublist es ∧ es'.length < places.length ∧ Walk hop a es' b := by
  obtain ⟨es', vs, hsub, hnodup, htrail⟩ := h.exists_trail
  refine ⟨es', hsub, ?_, htrail.walk⟩
  have hle := (hnodup.subperm (htrail.subset ha hhop)).length_le
  rw [htrail.length_eq] at hle
  exact hle

end Walk

/-! ### Places -/

/-- **The places of a graph**: its nodes and the ends of its edges, each once. -/
def Graph.places (g : Graph κ) : List NodeId :=
  sortedSet (g.nodes.keys ++ g.edgeList.flatMap fun e => [e.source, e.target])

namespace Graph

variable {g : Graph κ} {id : NodeId}

theorem mem_places : id ∈ g.places ↔
    g.hasNode id ∨ ∃ e ∈ g.edgeList, id = e.source ∨ id = e.target := by
  rw [places, mem_sortedSet, mem_append, mem_flatMap, ExtTreeMap.mem_keys]
  simp only [mem_cons, not_mem_nil, or_false]
  rfl

theorem Hop.mem_places {direction : Direction} {admitted : Edge κ → Prop} {a b : NodeId}
    {e : Edge κ} (h : g.Hop direction admitted a e b) : b ∈ g.places := by
  refine Graph.mem_places.mpr (.inr ⟨e, mem_values.mpr ⟨e.id, h.edge⟩, ?_⟩)
  rcases h.ends with ⟨-, hb⟩ | ⟨-, hb⟩
  · exact .inr hb
  · exact .inl hb

theorem Closed.length_places_le (h : g.Closed) : g.places.length ≤ g.nodes.size := by
  have hsub : g.places ⊆ g.nodes.keys := by
    intro id hid
    rw [ExtTreeMap.mem_keys]
    rcases mem_places.mp hid with hnode | ⟨e, he, rfl | rfl⟩
    · exact hnode
    · exact (h e he).1
    · exact (h e he).2
  have hnodup : g.places.Nodup :=
    (pairwise_sortedSet _).imp fun {a b} (hlt : compare a b = .lt) heq => by
      have hself : compare b b = .eq := Std.ReflCmp.compare_self
      rw [heq, hself] at hlt
      cases hlt
  have hle := (hnodup.subperm hsub).length_le
  rwa [ExtTreeMap.length_keys] at hle

end Graph

/-! ### Agreement -/

namespace Impact

variable {g : Graph Rat} {origin v : NodeId} {direction : Direction} {f : EdgeFilter Rat}
  {es : List (Edge Rat)} {depth : Nat}

theorem exists_counts_within (hg : g.Weighed) (horigin : origin ∈ g.places)
    (hdepth : g.places.length ≤ depth) {within : Nat → Prop}
    (h : g.Counts direction f within origin es v) :
    ∃ es' : List (Edge Rat), g.Counts direction f (· ≤ depth) origin es' v ∧
      confidenceAlong es ≤ confidenceAlong es' := by
  obtain ⟨short, hsub, hshort, hwalk⟩ := h.walk.exists_short horigin fun _ _ _ hhop => hhop.mem_places
  have hle := (hg.units h.walk).le_of_sublist hsub
  refine ⟨short, ⟨hwalk, (hshort.trans_le hdepth).le, ?_⟩, hle⟩
  rcases h.confidence with rfl | hfloor
  · exact .inl (sublist_nil.mp hsub)
  · exact .inr (hfloor.trans hle)

/-- What is found under one filter is found under another, if for each walk that counts for one of
them there is one as good that counts for the other. -/
theorem getElem?_confidences_of_matched (hg : g.Weighed) {f' : EdgeFilter Rat}
    (hforth : ∀ es v, g.Counts direction f f.Within origin es v →
      ∃ es' : List (Edge Rat), g.Counts direction f' f'.Within origin es' v ∧
        confidenceAlong es ≤ confidenceAlong es')
    (hback : ∀ es v, g.Counts direction f' f'.Within origin es v →
      ∃ es' : List (Edge Rat), g.Counts direction f f.Within origin es' v ∧
        confidenceAlong es ≤ confidenceAlong es')
    {c : Rat} (h : (confidences g origin direction f)[v]? = some c) :
    (confidences g origin direction f')[v]? = some c := by
  obtain ⟨⟨es, hes, rfl⟩, hgreatest⟩ := (getElem?_confidences hg).mp h
  obtain ⟨es', hes', hle⟩ := hforth es v hes
  have hbelow : ∀ es'' : List (Edge Rat), g.Counts direction f' f'.Within origin es'' v →
      confidenceAlong es'' ≤ confidenceAlong es := by
    intro es'' hes''
    obtain ⟨es₁, hes₁, hle₁⟩ := hback es'' v hes''
    exact hle₁.trans (hgreatest es₁ hes₁)
  exact (getElem?_confidences hg).mpr ⟨⟨es', hes', le_antisymm (hbelow es' hes') hle⟩, hbelow⟩

/-- **Both ways find the same confidences**, if the bound is at least the number of places. -/
theorem confidences_eq_of_places_le (hg : g.Weighed) (horigin : origin ∈ g.places)
    (hdepth : g.places.length ≤ depth) (direction : Direction) (f : EdgeFilter Rat) :
    confidences g origin direction { f with maxDepth := some depth } =
      confidences g origin direction { f with maxDepth := none } := by
  have hforth : ∀ es v,
      g.Counts direction { f with maxDepth := some depth }
        (EdgeFilter.Within { f with maxDepth := some depth }) origin es v →
      ∃ es' : List (Edge Rat), g.Counts direction { f with maxDepth := none }
        (EdgeFilter.Within { f with maxDepth := none }) origin es' v ∧
        confidenceAlong es ≤ confidenceAlong es' := fun es v hes =>
    ⟨es, ⟨hes.walk, fun m hm => absurd hm (by simp), hes.confidence⟩, le_rfl⟩
  have hback : ∀ es v,
      g.Counts direction { f with maxDepth := none }
        (EdgeFilter.Within { f with maxDepth := none }) origin es v →
      ∃ es' : List (Edge Rat), g.Counts direction { f with maxDepth := some depth }
        (EdgeFilter.Within { f with maxDepth := some depth }) origin es' v ∧
        confidenceAlong es ≤ confidenceAlong es' := by
    intro es v hes
    obtain ⟨es', hes', hle⟩ := exists_counts_within hg horigin hdepth hes
    refine ⟨es', ⟨hes'.walk, fun m hm => ?_, hes'.confidence⟩, hle⟩
    cases hm
    exact hes'.length
  exact ExtTreeMap.ext_getElem? fun {v} => Option.ext fun c =>
    ⟨getElem?_confidences_of_matched hg hforth hback,
      getElem?_confidences_of_matched hg hback hforth⟩

theorem distance_lt_places (hg : g.Weighed) (horigin : origin ∈ g.places) {d : Nat}
    (h : IsDistance (nextFound g origin direction f) [origin] v d) : d < g.places.length := by
  obtain ⟨es, hwalk, -⟩ := (Walk.reaches_iff (mem_nextFound hg)).mp h.1
  obtain ⟨short, -, hshort, hwalk'⟩ := hwalk.exists_short horigin fun _ _ _ hhop => hhop.1.mem_places
  exact (h.2 _ ((Walk.reaches_iff (mem_nextFound hg)).mpr ⟨short, hwalk', rfl⟩)).trans_lt hshort

/-- **Both ways find the same impact**, if the bound is at least the number of places. -/
theorem of_eq_of_places_le (hg : g.Weighed) (hdepth : g.places.length ≤ depth)
    (origin : NodeId) (direction : Direction) (f : EdgeFilter Rat) :
    of g origin direction { f with maxDepth := some depth } =
      of g origin direction { f with maxDepth := none } := by
  by_cases hnode : g.hasNode origin
  · have horigin : origin ∈ g.places := Graph.mem_places.mpr (.inl hnode)
    have hbest := confidences_eq_of_places_le hg horigin hdepth direction f
    have hnext : nextFound g origin direction { f with maxDepth := some depth } =
        nextFound g origin direction { f with maxDepth := none } := by
      funext id
      rw [nextFound, nextFound, hbest]
      rfl
    have hdistances : distancesFrom (nextFound g origin direction { f with maxDepth := some depth })
          (g.hops (some depth)) [origin] =
        distancesFrom (nextFound g origin direction { f with maxDepth := none }) (g.hops none)
          [origin] := by
      refine ExtTreeMap.ext_getElem? fun {v} => Option.ext fun d => ?_
      rw [getElem?_distancesFrom, getElem?_distancesFrom, hnext]
      refine and_congr_left fun hdistance => ?_
      have hlt := distance_lt_places hg horigin hdistance
      show d ≤ min g.hopLimit depth ↔ d ≤ g.hopLimit
      omega
    rw [of_eq hnode, of_eq hnode, hbest]
    exact congrArg (fun distances => Except.ok (mk origin direction
      (layersOf distances _))) hdistances
  · rw [of, of, if_neg hnode, if_neg hnode]

end Impact

/-- The walks that a filter lets pass: along edges of the kinds it allows, within the bound, and not
below the floor. -/
def Graph.passing (g : Graph Rat) (direction : Direction) (f : EdgeFilter Rat)
    (origin v : NodeId) : Set (List (Edge Rat)) :=
  {es | Walk (g.Hop direction fun e => f.allowsKind e.kind = true) origin es v ∧
    f.Within es.length ∧ f.minConfidence ≤ confidenceAlong es}

theorem Graph.counts_iff_mem_passing {g : Graph Rat} (hg : g.Weighed) {direction : Direction}
    {f : EdgeFilter Rat} {origin v : NodeId} {es : List (Edge Rat)} (hv : v ≠ origin) :
    g.Counts direction f f.Within origin es v ↔ es ∈ g.passing direction f origin v := by
  constructor
  · intro h
    refine ⟨h.walk_kinds, h.length, h.confidence.resolve_left ?_⟩
    rintro rfl
    exact hv h.walk.of_nil
  · rintro ⟨hwalk, hwithin, hfloor⟩
    exact .of_kinds hg hwalk hwithin hfloor

/-- **The confidences of an impact are the greatest, and a bound that is large enough does not
matter.**  Take a graph, a node of it, a direction and a filter.  There is an impact.  It has the
nodes other than the origin to which the filter lets a walk pass, each with the greatest confidence
of the walks that pass.  With a bound on the hops it is found by rounds, without one by settling
nodes, and the two give the same impact if the bound is at least the number of places, or at least
the number of nodes and the graph is closed. -/
theorem impact_confidence_greatest_and_bound_immaterial {g : Graph Rat} (hg : g.Weighed)
    {origin : NodeId} (horigin : g.hasNode origin = true) (direction : Direction)
    (f : EdgeFilter Rat) :
    (∃ i : Impact Rat, Impact.of g origin direction f = .ok i ∧
      (∀ v : NodeId, (∃ x ∈ i.entries, x.node = v) ↔
        v ≠ origin ∧ (g.passing direction f origin v).Nonempty) ∧
      ∀ x ∈ i.entries,
        IsGreatest (confidenceAlong '' g.passing direction f origin x.node) x.confidence) ∧
    ∀ depth : Nat, g.places.length ≤ depth ∨ g.Closed ∧ g.nodes.size ≤ depth →
      Impact.of g origin direction { f with maxDepth := some depth } =
        Impact.of g origin direction { f with maxDepth := none } := by
  constructor
  · obtain ⟨i, hi⟩ := Impact.of_eq_ok_of_hasNode horigin direction f
    have hentry : ∀ v : NodeId, (∃ x ∈ i.entries, x.node = v) ↔
        v ≠ origin ∧ (g.passing direction f origin v).Nonempty := by
      intro v
      rw [Impact.exists_entry_iff hg hi]
      exact and_congr_right fun hv => exists_congr fun es => Graph.counts_iff_mem_passing hg hv
    refine ⟨i, hi, hentry, fun x hx => ?_⟩
    obtain ⟨hv, -⟩ := (hentry x.node).mp ⟨x, hx, rfl⟩
    rw [Impact.of_eq_ok hi, Impact.mem_entries_layersOf] at hx
    obtain ⟨⟨es, hes, hconfidence⟩, hgreatest⟩ := (Impact.getElem?_confidences hg).mp hx.2.2
    refine ⟨⟨es, (Graph.counts_iff_mem_passing hg hv).mp hes, hconfidence⟩, ?_⟩
    rintro _ ⟨es', hes', rfl⟩
    exact hgreatest es' ((Graph.counts_iff_mem_passing hg hv).mpr hes')
  · intro depth hdepth
    refine Impact.of_eq_of_places_le hg ?_ origin direction f
    rcases hdepth with hplaces | ⟨hclosed, hnodes⟩
    · exact hplaces
    · exact hclosed.length_places_le.trans hnodes

/-! ### A graph with more places than nodes -/

/-- Two files of one version: the first has a method that calls a second, which calls a third, and
the other has the second and the third alone.  Then the first file is removed. -/
def sharedVersionCalls : List (Store.Call Rat) :=
  [.apply (methodFile ["A.a/0", "A.b/0", "A.c/0"]
      [callEdge "A.a/0" "A.b/0" 1, callEdge "A.b/0" "A.c/0" 1]),
    .apply { methodFile ["A.b/0", "A.c/0"] [] with path := "B.java" }, .remove "A.java"]

/-- Of the three methods one is left, with both calls.  A bound of three hops does not matter. -/
theorem bound_by_places_keeps_dangling_walk :
    let g := (Store.afterCalls sharedVersionCalls).graph
    let a := NodeId.of .serviceMethod "A.a/0"
    (g.hasNode a = true ∧ g.places.length ≤ 3) ∧
      (∃ i : Impact Rat, Impact.of g a .backward ⟨none, none, 1 / 2⟩ = .ok i ∧
        ∀ x ∈ i.entries, IsGreatest
          (confidenceAlong '' g.passing .backward ⟨none, none, 1 / 2⟩ a x.node) x.confidence) ∧
      Impact.of g a .backward ⟨none, some 3, 1 / 2⟩ =
        Impact.of g a .backward ⟨none, none, 1 / 2⟩ := by
  intro g a
  have hgraph : g.hasNode a = true ∧ g.places.length ≤ 3 := by decide +kernel
  obtain ⟨⟨i, hi, -, hgreatest⟩, hbound⟩ := impact_confidence_greatest_and_bound_immaterial
    (Store.published_afterCalls sharedVersionCalls).weighed hgraph.1 .backward ⟨none, none, 1 / 2⟩
  exact ⟨hgraph, ⟨i, hi, hgreatest⟩, hbound 3 (Or.inl hgraph.2)⟩

/-- A bound of one hop, as many as there are nodes, cuts off the walk to the third method. -/
theorem bound_by_nodes_cuts_dangling_walk :
    let g := (Store.afterCalls sharedVersionCalls).graph
    let a := NodeId.of .serviceMethod "A.a/0"
    g.nodes.size = 1 ∧ (Impact.of g a .backward ⟨none, some 1, 0⟩).toOption.map Impact.size = some 1 ∧
      (Impact.of g a .backward ⟨none, none, 0⟩).toOption.map Impact.size = some 2 := by
  decide +kernel

end AppAtlas
