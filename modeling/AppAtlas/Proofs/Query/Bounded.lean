import AppAtlas.Proofs.Query.Strategies

/-!
# Impacts with a bound on the hops

A bound keeps an impact from going further than some number of hops.  One would like it to cut the
impact without a bound at that distance.  With a floor it does not.  The distances of an impact are
counted along nodes that have been found, and a node can be found by a long walk of great confidence
and still be near, by a short one that is below the floor.  Under a bound the long walk does not
count, so the node is missing, and whatever is near because of it is further away.

What holds: an impact with a bound has only nodes that the one without a bound has as near or
nearer, and it misses those of them to which no walk within the bound passes.  If the walks of the
fewest hops pass, and so always without a floor, the bound cuts at the distance.

* `bounded_impact_part_of_unbounded`: how an impact with a bound compares to that without.
* `weak_shortcut_not_cut_at_distance`: a graph in which the bound does not cut at the distance.
-/

namespace AppAtlas

open OrderedMap
open Std (ExtTreeMap ExtTreeSet)

theorem Reaches.mono {next next' : NodeId → List NodeId} {starts : List NodeId} {d : Nat}
    {v : NodeId} (h : Reaches next starts d v) (hnext : ∀ u, next u ⊆ next' u) :
    Reaches next' starts d v := by
  induction h with
  | start h => exact .start h
  | hop _ hv ih => exact .hop ih (hnext _ hv)

abbrev EdgeFilter.withDepth {κ : Type} (f : EdgeFilter κ) (bound : Option Nat) : EdgeFilter κ :=
  { f with maxDepth := bound }

theorem EdgeFilter.within_withDepth_some {κ : Type} {f : EdgeFilter κ} {depth n : Nat} :
    (f.withDepth (some depth)).Within n ↔ n ≤ depth := by
  simp [EdgeFilter.Within]

theorem EdgeFilter.within_withDepth_none {κ : Type} {f : EdgeFilter κ} {n : Nat} :
    (f.withDepth none).Within n := by
  simp [EdgeFilter.Within]

namespace Impact

variable {g : Graph Rat} {origin v : NodeId} {direction : Direction} {f : EdgeFilter Rat}
  {es : List (Edge Rat)} {depth : Nat} {i j : Impact Rat} {x y : ImpactEntry Rat}

/-! ### Distances -/

theorem isDistance_of_mem_entries (hi : of g origin direction f = .ok i)
    (hx : x ∈ i.entries) : f.Within x.distance ∧
      IsDistance (nextFound g origin direction f) [origin] x.node x.distance := by
  rw [of_eq_ok hi, mem_entries_layersOf] at hx
  obtain ⟨hhops, hdistance⟩ := (getElem?_distancesFrom _).mp hx.1
  exact ⟨(Graph.le_hops_iff.mp hhops).2, hdistance⟩

theorem distance_le_length (hg : g.Weighed) (hi : of g origin direction f = .ok i)
    (hx : x ∈ i.entries) (hes : g.Counts direction f f.Within origin es x.node) :
    x.distance ≤ es.length :=
  (isDistance_of_mem_entries hi hx).2.2 es.length
    ((Walk.reaches_iff (mem_nextFound hg)).mpr ⟨es, walk_foundHop hg hes, rfl⟩)

/-! ### With and without a bound -/

theorem nextFound_withDepth_subset (hg : g.Weighed) (u : NodeId) :
    nextFound g origin direction (f.withDepth (some depth)) u ⊆
      nextFound g origin direction (f.withDepth none) u := by
  intro v hv
  obtain ⟨e, hhop, c, hc⟩ := (mem_nextFound hg u v).mp hv
  obtain ⟨es, hes, -⟩ := (searched_confidences hg).attained v c hc
  obtain ⟨c', hc', -⟩ := (searched_confidences hg).covered es v
    (f := f.withDepth none) ⟨hes.walk, EdgeFilter.within_withDepth_none, hes.confidence⟩
  exact (mem_nextFound hg u v).mpr ⟨e, hhop, c', hc'⟩

/-- **What a bound leaves is as near or nearer without it.** -/
theorem exists_nearer_entry (hg : g.Weighed)
    (hi : of g origin direction (f.withDepth (some depth)) = .ok i)
    (hj : of g origin direction (f.withDepth none) = .ok j) (hx : x ∈ i.entries) :
    x.distance ≤ depth ∧ ∃ y ∈ j.entries, y.node = x.node ∧ y.distance ≤ x.distance := by
  obtain ⟨hwithin, hdistance⟩ := isDistance_of_mem_entries hi hx
  obtain ⟨hne, es, hes⟩ := (exists_entry_iff hg hi).mp ⟨x, hx, rfl⟩
  obtain ⟨y, hy, hnode⟩ := (exists_entry_iff hg hj).mpr
    ⟨hne, es, hes.walk, EdgeFilter.within_withDepth_none, hes.confidence⟩
  refine ⟨EdgeFilter.within_withDepth_some.mp hwithin, y, hy, hnode, ?_⟩
  have hreaches := hdistance.1.mono (nextFound_withDepth_subset hg)
  exact (isDistance_of_mem_entries hj hy).2.2 x.distance (hnode ▸ hreaches)

/-- **The nearest walks pass**: each node that an impact has at a distance up to some bound is
reached by a walk of as many hops that passes. -/
def NearestPass (g : Graph Rat) (origin : NodeId) (direction : Direction) (f : EdgeFilter Rat)
    (depth : Nat) (i : Impact Rat) : Prop :=
  ∀ x ∈ i.entries, x.distance ≤ depth →
    ∃ es ∈ g.passing direction f origin x.node, es.length = x.distance

/-- Without a floor the nearest walks pass, since products are above zero. -/
theorem nearestPass_of_floor_le_zero (hg : g.Weighed) (hzero : f.minConfidence ≤ 0)
    (hj : of g origin direction (f.withDepth none) = .ok j) :
    NearestPass g origin direction (f.withDepth none) depth j := by
  intro y hy _
  obtain ⟨-, hdistance⟩ := isDistance_of_mem_entries hj hy
  obtain ⟨es, hwalk, hlength⟩ := (Walk.reaches_iff (mem_nextFound hg)).mp hdistance.1
  have hadmitted : Walk (g.Hop direction fun e => (f.withDepth none).admits e = true) origin es
      y.node := hwalk.mono fun u e v _ hhop => hhop.1
  have hcounts : g.Counts direction (f.withDepth none) (f.withDepth none).Within origin es y.node :=
    ⟨hadmitted, EdgeFilter.within_withDepth_none,
      .inr (hzero.trans (hg.units hadmitted).isUnit.1.le)⟩
  obtain ⟨hne, -⟩ := (exists_entry_iff hg hj).mp ⟨y, hy, rfl⟩
  exact ⟨es, (Graph.counts_iff_mem_passing hg hne).mp hcounts, hlength⟩

section

variable (hg : g.Weighed) (hi : Impact.of g origin direction (f.withDepth (some depth)) = .ok i)
  (hj : of g origin direction (f.withDepth none) = .ok j)
  (hpass : NearestPass g origin direction (f.withDepth none) depth j)

include hg hi hj hpass

/-- **If a walk of as many hops as the distance passes, a bound keeps the node at its distance.** -/
theorem exists_entry_at_distance (hy : y ∈ j.entries)
    (hdepth : y.distance ≤ depth) : ∃ x ∈ i.entries, x.node = y.node ∧ x.distance = y.distance := by
  obtain ⟨hne, -⟩ := (exists_entry_iff hg hj).mp ⟨y, hy, rfl⟩
  obtain ⟨es, hes, hlength⟩ := hpass y hy hdepth
  have hcounts : g.Counts direction (f.withDepth (some depth)) (f.withDepth (some depth)).Within
      origin es y.node :=
    .of_kinds hg hes.1 (EdgeFilter.within_withDepth_some.mpr (hlength ▸ hdepth)) hes.2.2
  obtain ⟨x, hx, hnode⟩ := (exists_entry_iff hg hi).mpr ⟨hne, es, hcounts⟩
  obtain ⟨-, y', hy', hnode', hnearer⟩ := exists_nearer_entry hg hi hj hx
  -- both entries of the impact without a bound are for the same node
  have hsame : y'.distance = y.distance := (isDistance_of_mem_entries hj hy').2.unique
    (hnode'.trans hnode ▸ (isDistance_of_mem_entries hj hy).2)
  have hle := distance_le_length hg hi hx (hnode ▸ hcounts)
  exact ⟨x, hx, hnode, by omega⟩

/-- **A bound cuts at the distance** if the nearest walks pass. -/
theorem entry_iff_of_nearestPass (v : NodeId) (n : Nat) :
    (∃ x ∈ i.entries, x.node = v ∧ x.distance = n) ↔
      n ≤ depth ∧ ∃ y ∈ j.entries, y.node = v ∧ y.distance = n := by
  constructor
  · rintro ⟨x, hx, rfl, rfl⟩
    obtain ⟨hdepth, y, hy, hnode, hnearer⟩ := exists_nearer_entry hg hi hj hx
    obtain ⟨x', hx', hnode', hdistance⟩ :=
      exists_entry_at_distance hg hi hj hpass hy (hnearer.trans hdepth)
    have hsame : x'.distance = x.distance := (isDistance_of_mem_entries hi hx').2.unique
      (hnode'.trans hnode ▸ (isDistance_of_mem_entries hi hx).2)
    exact ⟨hdepth, y, hy, hnode, hdistance.symm.trans hsame⟩
  · rintro ⟨hdepth, y, hy, rfl, rfl⟩
    exact exists_entry_at_distance hg hi hj hpass hy hdepth

end

end Impact

/-- **An impact with a bound is part of the one without, and the bound cuts at the distance where
the nearest walks pass.**  Take a published graph, an origin, a direction, a filter and a bound on
the hops.  If the origin is no node, both impacts are refused for it.  Else both are there.  Each
node of the impact with the bound is in the other one, no further away, and within the bound.  A
node that the impact without a bound has at a distance up to the bound is in the one with the bound
if and only if a walk within the bound passes.  If the floor is not above zero, or if for each of
these nodes a walk of as many hops as its distance passes, then the impact with the bound has
exactly the nodes that the other one has at a distance up to the bound, at the same distances. -/
theorem bounded_impact_part_of_unbounded {s : Store Rat} (hs : s.Published) (origin : NodeId)
    (direction : Direction) (f : EdgeFilter Rat) (depth : Nat) :
    (s.graph.hasNode origin = false → ∀ bound : Option Nat,
      Impact.of s.graph origin direction (f.withDepth bound) = .error (.nodeNotFound origin)) ∧
    (s.graph.hasNode origin = true → ∃ i j : Impact Rat,
      Impact.of s.graph origin direction (f.withDepth (some depth)) = .ok i ∧
      Impact.of s.graph origin direction (f.withDepth none) = .ok j ∧
      (∀ x ∈ i.entries,
        x.distance ≤ depth ∧ ∃ y ∈ j.entries, y.node = x.node ∧ y.distance ≤ x.distance) ∧
      (∀ y ∈ j.entries, y.distance ≤ depth → ((∃ x ∈ i.entries, x.node = y.node) ↔
        (s.graph.passing direction (f.withDepth (some depth)) origin y.node).Nonempty)) ∧
      (f.minConfidence ≤ 0 ∨
          Impact.NearestPass s.graph origin direction (f.withDepth none) depth j →
        ∀ (v : NodeId) (n : Nat), (∃ x ∈ i.entries, x.node = v ∧ x.distance = n) ↔
          n ≤ depth ∧ ∃ y ∈ j.entries, y.node = v ∧ y.distance = n)) := by
  have hg := hs.weighed
  constructor
  · intro hnone bound
    rw [Impact.of, hnone, if_neg (by simp)]
  · intro horigin
    obtain ⟨i, hi⟩ := Impact.of_eq_ok_of_hasNode horigin direction (f.withDepth (some depth))
    obtain ⟨j, hj⟩ := Impact.of_eq_ok_of_hasNode horigin direction (f.withDepth none)
    refine ⟨i, j, hi, hj, fun x hx => Impact.exists_nearer_entry hg hi hj hx, fun y hy _ => ?_,
      fun hfloor => ?_⟩
    · obtain ⟨hne, -⟩ := (Impact.exists_entry_iff hg hj).mp ⟨y, hy, rfl⟩
      rw [Impact.exists_entry_iff hg hi, and_iff_right hne]
      exact exists_congr fun es => Graph.counts_iff_mem_passing hg hne
    · refine Impact.entry_iff_of_nearestPass hg hi hj ?_
      exact hfloor.elim (fun hzero => Impact.nearestPass_of_floor_le_zero hg hzero hj) id

/-! ### A weak shortcut -/

/-- A method calls a second and this a third, neither call being certain.  From the third a certain
call leads to a fourth, and one back.  There are also certain calls from the first method over three
others to the fourth. -/
def weakShortcutFile : Contribution Rat :=
  methodFile ["A.a/0", "A.b/0", "A.c/0", "A.d/0", "A.p/0", "A.q/0", "A.r/0"]
    [callEdge "A.a/0" "A.b/0" (3 / 5), callEdge "A.b/0" "A.c/0" (3 / 5),
      callEdge "A.c/0" "A.d/0" 1, callEdge "A.d/0" "A.c/0" 1, callEdge "A.a/0" "A.p/0" 1,
      callEdge "A.p/0" "A.q/0" 1, callEdge "A.q/0" "A.r/0" 1, callEdge "A.r/0" "A.d/0" 1]

/-- Without a floor a bound of four hops cuts at that distance. -/
theorem weak_shortcut_cut_without_floor :
    let g := (Store.afterCalls [.apply weakShortcutFile]).graph
    let a := NodeId.of .serviceMethod "A.a/0"
    g.hasNode a = true ∧ ∃ i j : Impact Rat,
      Impact.of g a .backward ⟨none, some 4, 0⟩ = .ok i ∧
      Impact.of g a .backward ⟨none, none, 0⟩ = .ok j ∧
      ∀ (v : NodeId) (n : Nat), (∃ x ∈ i.entries, x.node = v ∧ x.distance = n) ↔
        n ≤ 4 ∧ ∃ y ∈ j.entries, y.node = v ∧ y.distance = n := by
  intro g a
  have ha : g.hasNode a = true := by decide +kernel
  obtain ⟨i, j, hi, hj, -, -, hcut⟩ := (bounded_impact_part_of_unbounded
    (Store.published_afterCalls [.apply weakShortcutFile]) a .backward ⟨none, none, 0⟩ 4).2 ha
  exact ⟨ha, i, j, hi, hj, hcut (Or.inl le_rfl)⟩

/-- With a floor of one half the third method is two hops away, and the fourth three, although the
third is found only by a walk of five hops.  Under a bound of four hops the third is missing, and
the fourth is four hops away. -/
theorem weak_shortcut_not_cut_at_distance :
    let g := (Store.afterCalls [.apply weakShortcutFile]).graph
    let a := NodeId.of .serviceMethod "A.a/0"
    let c := NodeId.of .serviceMethod "A.c/0"
    let d := NodeId.of .serviceMethod "A.d/0"
    let distanceIn := fun (bound : Option Nat) (v : NodeId) =>
      (Impact.of g a .backward ⟨none, bound, 1 / 2⟩).toOption.bind fun i =>
        (i.entries.find? (·.node == v)).map (·.distance)
    distanceIn none c = some 2 ∧ distanceIn (some 4) c = none ∧
      distanceIn none d = some 3 ∧ distanceIn (some 4) d = some 4 := by
  decide +kernel

end AppAtlas
