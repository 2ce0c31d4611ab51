import AppAtlas.Proofs.Query.Confidences

/-!
# What an impact reaches

An impact lists the nodes for which a walk counts, other than the origin.  The layers come from hop
counts along nodes that have been found, and the beginning of a walk that counts counts itself.  So
nothing that has been found is missed, although the hops are counted anew.

* `Impact.exists_distance`: what has been found along walks of found nodes has a distance.
* `Impact.exists_entry_iff`: which nodes an impact reaches.
-/

namespace AppAtlas

open List OrderedMap
open Std (ExtTreeMap ExtTreeSet)

variable {κ : Type}

theorem Graph.le_hops_iff [Confidence κ] {g : Graph κ} {f : EdgeFilter κ} {n : Nat} :
    n ≤ g.hops f.maxDepth ↔ n ≤ g.hopLimit ∧ f.Within n := by
  rw [Graph.hops, EdgeFilter.Within]
  cases f.maxDepth with
  | none => simp
  | some m => simp

namespace Impact

section

variable {distances : Distances} {best : Confidences κ} {x : ImpactEntry κ} {distance : Nat}

def layerAt (distances : Distances) (best : Confidences κ) (distance : Nat) : ImpactLayer κ where
  distance := distance
  nodes := ((distances.toList.filter fun p => p.2 != 0).filter fun p => p.2 == distance).filterMap
    fun p => (best.get? p.1).map fun c => ⟨p.1, p.2, c⟩

theorem layersOf_eq : layersOf distances best =
    (sortedSet ((distances.toList.filter fun p => p.2 != 0).map (·.2))).map
      (layerAt distances best) := rfl

theorem mem_reached {id : NodeId} {d : Nat} :
    (id, d) ∈ distances.toList.filter (fun p => p.2 != 0) ↔ distances[id]? = some d ∧ d ≠ 0 := by
  rw [mem_filter, ExtTreeMap.mem_toList_iff_getElem?_eq_some, bne_iff_ne]

theorem mem_layersOf {layer : ImpactLayer κ} : layer ∈ layersOf distances best ↔
    ∃ distance : Nat, distance ≠ 0 ∧ (∃ id : NodeId, distances[id]? = some distance) ∧
      layer = layerAt distances best distance := by
  rw [layersOf_eq, mem_map]
  simp only [mem_sortedSet, mem_map, Prod.exists, mem_reached]
  constructor
  · rintro ⟨distance, ⟨id, d, ⟨hid, hne⟩, rfl⟩, rfl⟩
    exact ⟨d, hne, ⟨id, hid⟩, rfl⟩
  · rintro ⟨distance, hne, ⟨id, hid⟩, rfl⟩
    exact ⟨distance, ⟨id, distance, ⟨hid, hne⟩, rfl⟩, rfl⟩

theorem mem_nodes_layerAt : x ∈ (layerAt distances best distance).nodes ↔
    distances[x.node]? = some x.distance ∧ x.distance ≠ 0 ∧ x.distance = distance ∧
      best[x.node]? = some x.confidence := by
  rw [layerAt, mem_filterMap]
  constructor
  · rintro ⟨⟨id, d⟩, hmem, hentry⟩
    rw [mem_filter, mem_reached, beq_iff_eq] at hmem
    obtain ⟨c, hc, rfl⟩ := Option.map_eq_some_iff.mp hentry
    exact ⟨hmem.1.1, hmem.1.2, hmem.2, hc⟩
  · rintro ⟨hdistance, hne, heq, hc⟩
    refine ⟨(x.node, x.distance), ?_, Option.map_eq_some_iff.mpr ⟨x.confidence, hc, rfl⟩⟩
    rw [mem_filter, mem_reached, beq_iff_eq]
    exact ⟨⟨hdistance, hne⟩, heq⟩

/-- **The entries of the layers** are the nodes that have a distance from one on and a
confidence. -/
theorem mem_entries_layersOf : x ∈ (layersOf distances best).flatMap (·.nodes) ↔
      distances[x.node]? = some x.distance ∧ x.distance ≠ 0 ∧
        best[x.node]? = some x.confidence := by
  rw [mem_flatMap]
  constructor
  · rintro ⟨layer, hlayer, hx⟩
    obtain ⟨distance, -, -, rfl⟩ := mem_layersOf.mp hlayer
    obtain ⟨hdistance, hne, -, hc⟩ := mem_nodes_layerAt.mp hx
    exact ⟨hdistance, hne, hc⟩
  · rintro ⟨hdistance, hne, hc⟩
    exact ⟨_, mem_layersOf.mpr ⟨x.distance, hne, ⟨x.node, hdistance⟩, rfl⟩,
      mem_nodes_layerAt.mpr ⟨hdistance, hne, rfl, hc⟩⟩

end

section

variable [Confidence κ] {g : Graph κ} {origin v : NodeId} {direction : Direction}
  {f : EdgeFilter κ} {i : Impact κ}

def nextFound (g : Graph κ) (origin : NodeId) (direction : Direction) (f : EdgeFilter κ)
    (id : NodeId) : List NodeId :=
  ((g.neighbours direction f id).map (·.1)).filter fun id =>
    (confidences g origin direction f).contains id

def FoundHop (g : Graph κ) (origin : NodeId) (direction : Direction) (f : EdgeFilter κ)
    (u : NodeId) (e : Edge κ) (v : NodeId) : Prop :=
  g.Hop direction (fun e => f.admits e = true) u e v ∧
    ∃ c : κ, (confidences g origin direction f)[v]? = some c

theorem mem_nextFound (hg : g.Weighed) (u v : NodeId) : v ∈ nextFound g origin direction f u ↔
      ∃ e, FoundHop g origin direction f u e v := by
  rw [nextFound, mem_filter, mem_map, ExtTreeMap.contains_eq_isSome_getElem?,
    Option.isSome_iff_exists]
  constructor
  · rintro ⟨⟨⟨v', e⟩, hmem, rfl⟩, hfound⟩
    exact ⟨e, hg.mem_neighbours.mp hmem, hfound⟩
  · rintro ⟨e, hhop, hfound⟩
    exact ⟨⟨(v, e), hg.mem_neighbours.mpr hhop, rfl⟩, hfound⟩

/-- **A node to which a walk within the bound leads along found nodes has a distance.** -/
theorem exists_distance (hg : g.Weighed) {es : List (Edge κ)}
    (h : Walk (FoundHop g origin direction f) origin es v) (hwithin : f.Within es.length) :
    ∃ d, (distancesFrom (nextFound g origin direction f) (g.hops f.maxDepth)
      [origin])[v]? = some d := by
  obtain ⟨short, hsub, hnodup, hwalk⟩ := h.exists_nodup fun _ _ _ hhop => hhop.1.ends
  have hlimit : short.length ≤ g.hopLimit := by
    refine Graph.length_le_hopLimit hnodup fun e he => ?_
    obtain ⟨u, w, hhop⟩ := hwalk.exists_hop e he
    exact hhop.1.edge
  obtain ⟨d, hd, hdistance⟩ := IsDistance.exists_of_reaches
    ((Walk.reaches_iff (mem_nextFound hg)).mpr ⟨short, hwalk, rfl⟩)
  exact ⟨d, (getElem?_distancesFrom _).mpr
    ⟨hd.trans (Graph.le_hops_iff.mpr ⟨hlimit, hwithin.of_le hsub.length_le⟩), hdistance⟩⟩

theorem of_eq (h : g.hasNode origin) : of g origin direction f =
      .ok ⟨origin, direction, layersOf (distancesFrom (nextFound g origin direction f)
        (g.hops f.maxDepth) [origin]) (confidences g origin direction f)⟩ := by
  rw [of, if_pos h]
  rfl

theorem layers_of_eq_ok (h : of g origin direction f = .ok i) :
    i.layers = layersOf (distancesFrom (nextFound g origin direction f) (g.hops f.maxDepth)
      [origin]) (confidences g origin direction f) := by
  rw [of] at h
  split at h
  · cases h
    rfl
  · cases h

theorem of_eq_ok (h : of g origin direction f = .ok i) :
    i.entries = (layersOf (distancesFrom (nextFound g origin direction f) (g.hops f.maxDepth)
      [origin]) (confidences g origin direction f)).flatMap (·.nodes) := by
  rw [entries, layers_of_eq_ok h]

theorem of_eq_ok_of_hasNode (h : g.hasNode origin) (direction : Direction)
    (f : EdgeFilter κ) : ∃ i, of g origin direction f = .ok i :=
  ⟨_, of_eq h⟩

end

variable {g : Graph Rat} {origin v : NodeId} {direction : Direction} {f : EdgeFilter Rat}
  {i : Impact Rat}

theorem walk_foundHop (hg : g.Weighed) {es : List (Edge Rat)}
    (h : g.Counts direction f f.Within origin es v) :
    Walk (FoundHop g origin direction f) origin es v := by
  induction es using reverseRecOn generalizing v with
  | nil =>
    obtain rfl := h.walk.of_nil
    exact .stay
  | append_singleton es e ih =>
    have hshorter : ∀ n, f.Within (n + 1) → f.Within n := fun n hn => hn.of_le (Nat.le_succ n)
    obtain ⟨u, hcounts, hhop, -⟩ := h.of_concat hg hshorter
    obtain ⟨c, hc, -⟩ := (searched_confidences hg).covered _ v h
    exact .step (ih hcounts) ⟨hhop, c, hc⟩

/-- **An impact reaches the nodes to which a walk counts**, other than the origin. -/
theorem exists_entry_iff (hg : g.Weighed) (h : of g origin direction f = .ok i) :
    (∃ x ∈ i.entries, x.node = v) ↔
      v ≠ origin ∧ ∃ es : List (Edge Rat), g.Counts direction f f.Within origin es v := by
  rw [of_eq_ok h]
  constructor
  · rintro ⟨x, hx, rfl⟩
    obtain ⟨hdistance, hne, hc⟩ := mem_entries_layersOf.mp hx
    obtain ⟨-, hdistance⟩ := (getElem?_distancesFrom _).mp hdistance
    refine ⟨fun horigin => ?_, ?_⟩
    · exact hne (hdistance.unique (IsDistance.zero_iff.mpr (mem_singleton.mpr horigin)))
    · obtain ⟨es, hes, -⟩ := (searched_confidences hg).attained _ _ hc
      exact ⟨es, hes⟩
  · rintro ⟨hv, es, hes⟩
    obtain ⟨d, hd⟩ := exists_distance hg (walk_foundHop hg hes) hes.length
    obtain ⟨c, hc, -⟩ := (searched_confidences hg).covered es v hes
    refine ⟨⟨v, d, c⟩, mem_entries_layersOf.mpr ⟨hd, ?_, hc⟩, rfl⟩
    rintro rfl
    obtain ⟨-, hdistance⟩ := (getElem?_distancesFrom _).mp hd
    exact hv (mem_singleton.mp (IsDistance.zero_iff.mp hdistance))

end Impact

end AppAtlas
