import AppAtlas.Proofs.Confidence.Products
import AppAtlas.Proofs.Query.Impact
import AppAtlas.Proofs.Store.Closed
import Mathlib.Order.Bounds.Basic

/-!
# What can be reached

With a floor of zero no walk is left out for its confidence.  Then an impact has the nodes that can
be reached along edges of the kinds asked for, and its layers are by the fewest hops.  The numbers
need not be exact: it is enough that products do not get below zero, as those of doubles do not.

The nodes are found by one search and their distances by another, which goes along found nodes only.
A walk within the bound goes along found nodes, so the second search misses no walk that is shorter.

* `Impact.layered_layersOf`: layers are not empty and in order, and so are the nodes in each.
* `impact_layers_reachable_by_fewest_hops`: what an impact with a floor of zero is.
-/

namespace AppAtlas

open List OrderedMap
open Std (ExtTreeMap ExtTreeSet)

variable {κ : Type}

namespace Impact

section

variable [Confidence κ] {g : Graph κ} {origin u v : NodeId} {direction : Direction}
  {f : EdgeFilter κ} {best : Confidences κ} {settled : ExtTreeSet NodeId compare}
  {within within' : Nat → Prop} {e : Edge κ}

/-- The node is reached by a walk of some number of hops. -/
def Led (g : Graph κ) (direction : Direction) (f : EdgeFilter κ) (within : Nat → Prop)
    (origin v : NodeId) : Prop :=
  ∃ es : List (Edge κ), Walk (g.Hop direction fun e => f.admits e = true) origin es v ∧
    within es.length

/-- What is found is not below zero, and walks lead there. -/
def Sound (g : Graph κ) (direction : Direction) (f : EdgeFilter κ) (within : Nat → Prop)
    (origin : NodeId) (best : Confidences κ) : Prop :=
  ∀ (v : NodeId) (c : κ), best[v]? = some c → ¬c < 0.0 ∧ Led g direction f within origin v

/-- **What has been found is what walks up to some number of hops lead to.** -/
structure Explored (g : Graph κ) (direction : Direction) (f : EdgeFilter κ) (within : Nat → Prop)
    (origin : NodeId) (best : Confidences κ) : Prop where
  sound : Sound g direction f within origin best
  complete : ∀ v : NodeId, Led g direction f within origin v → ∃ c : κ, best[v]? = some c

namespace Sound

theorem improveAll (h : Sound g direction f within origin best) {offers : List (NodeId × κ)}
    (hoffers : ∀ v x, (v, x) ∈ offers → ¬x < 0.0 ∧ Led g direction f within origin v) :
    Sound g direction f within origin (improveAll f best offers) := by
  intro v x hx
  rcases improveAll_cases hx with hx | ⟨hmem, -⟩
  · exact h v x hx
  · exact hoffers v x hmem

variable [Confidence.Nonnegative κ]

theorem started (hw : within 0) : Sound g direction f within origin (started origin) := by
  intro v c hc
  rw [getElem?_started] at hc
  split at hc
  · next hv =>
    subst hv
    cases hc
    exact ⟨Confidence.Nonnegative.not_one_lt, [], .stay, hw⟩
  · cases hc

theorem hop (hg : g.Weighed) (h : Sound g direction f within origin best)
    (hw : ∀ n, within n → within' (n + 1)) {c : κ} (hu : best[u]? = some c)
    (hhop : g.Hop direction (fun e => f.admits e = true) u e v) :
    ¬c * e.confidence < 0.0 ∧ Led g direction f within' origin v := by
  obtain ⟨hc, es, hwalk, hwithin⟩ := h u c hu
  have hpos : ¬e.confidence < 0.0 := fun hlt => Confidence.Ordered.lt_irrefl _
    (Confidence.Ordered.lt_trans _ _ _ hlt (Confidence.zero_lt_of_isUnit (hg e.id e hhop.edge).2))
  refine ⟨Confidence.Nonnegative.not_mul_lt _ _ hc hpos, es ++ [e], .step hwalk hhop, ?_⟩
  rw [length_append]
  exact hw _ hwithin

end Sound

/-! ### Rounds -/

namespace Explored

variable [Confidence.Nonnegative κ]

theorem started (g : Graph κ) (direction : Direction) (f : EdgeFilter κ) (origin : NodeId) :
    Explored g direction f (· ≤ 0) origin (started origin) where
  sound := Sound.started (Nat.le_refl 0)
  complete v hv := by
    obtain ⟨es, hwalk, hlength⟩ := hv
    obtain rfl := length_eq_zero_iff.mp (Nat.le_zero.mp hlength)
    obtain rfl := hwalk.of_nil
    exact ⟨1.0, by rw [getElem?_started, if_pos rfl]⟩

/-- **A round finds what is one hop further.** -/
theorem round (hg : g.Weighed) (hzero : f.minConfidence = 0.0) {n : Nat}
    (h : Explored g direction f (· ≤ n) origin best) :
    Explored g direction f (· ≤ n + 1) origin (round g direction f best) := by
  rw [round_eq_improveAll]
  constructor
  · have hbefore : Sound g direction f (· ≤ n + 1) origin best := by
      intro v c hc
      obtain ⟨hnot, es, hwalk, hlength⟩ := h.sound v c hc
      exact ⟨hnot, es, hwalk, Nat.le_succ_of_le hlength⟩
    refine hbefore.improveAll fun v x hx => ?_
    obtain ⟨u, c, e, hfound, hhop, rfl⟩ := (mem_offersOf hg).mp hx
    exact h.sound.hop hg (fun _ => Nat.succ_le_succ)
      (ExtTreeMap.mem_toList_iff_getElem?_eq_some.mp hfound) hhop
  · rintro v ⟨es, hwalk, hlength⟩
    cases hwalk with
    | stay =>
      obtain ⟨c, hc⟩ := h.complete origin ⟨[], .stay, Nat.zero_le n⟩
      exact improveAll_found _ hc
    | @step es u _ e hwalk hhop =>
      rw [length_append] at hlength
      obtain ⟨c, hc⟩ := h.complete u ⟨es, hwalk, Nat.le_of_succ_le_succ hlength⟩
      have hmem := (mem_offersOf hg).mpr
        ⟨u, c, e, ExtTreeMap.mem_toList_iff_getElem?_eq_some.mpr hc, hhop, rfl⟩
      have hoffer : ¬c * e.confidence < 0.0 ∧ Led g direction f (· ≤ n + 1) origin v :=
        h.sound.hop hg (fun _ => Nat.succ_le_succ) hc hhop
      refine improveAll_offered best hmem ?_
      rw [hzero]
      exact hoffer.1

end Explored

/-! ### Settling -/

/-- **The state of a search that settles nodes**, with a floor of zero: the hops of what is settled
lead to what is found. -/
structure Spreading (g : Graph κ) (direction : Direction) (f : EdgeFilter κ) (origin : NodeId)
    (best : Confidences κ) (settled : ExtTreeSet NodeId compare) : Prop
    extends Exploring g direction f origin best settled where
  sound : Sound g direction f (fun _ => True) origin best
  start : ∃ c : κ, best[origin]? = some c
  spread : ∀ (u v : NodeId) (e : Edge κ), u ∈ settled →
    g.Hop direction (fun e => f.admits e = true) u e v → ∃ c : κ, best[v]? = some c

namespace Spreading

theorem explored (h : Spreading g direction f origin best settled)
    (hnone : nextToSettle? best settled = none) :
    Explored g direction f (fun _ => True) origin best := by
  refine ⟨h.sound, ?_⟩
  rintro v ⟨es, hwalk, -⟩
  induction hwalk with
  | stay => exact h.start
  | step _ hhop ih =>
    obtain ⟨c, hc⟩ := ih
    exact h.spread _ _ _ (settled_of_nextToSettle? hnone hc) hhop

variable [Confidence.Nonnegative κ]

theorem started (g : Graph κ) (direction : Direction) (f : EdgeFilter κ) (origin : NodeId) :
    Spreading g direction f origin (started origin) ∅ where
  toExploring := Exploring.started g direction f origin
  sound := Sound.started trivial
  start := ⟨1.0, by rw [getElem?_started, if_pos rfl]⟩
  spread u v e hu := absurd hu ExtTreeSet.not_mem_empty

/-- **Settling a node keeps the state in order.** -/
theorem step (hg : g.Weighed) (hzero : f.minConfidence = 0.0)
    (h : Spreading g direction f origin best settled) {id : NodeId} {c : κ}
    (hnext : nextToSettle? best settled = some (id, c)) : Spreading g direction f origin
      (improveAll f best (offersAt g direction f (settled.insert id) id c))
      (settled.insert id) := by
  obtain ⟨hid, hopen⟩ := open_of_nextToSettle? hnext
  have hoffer : ∀ {v : NodeId} {e : Edge κ}, g.Hop direction (fun e => f.admits e = true) id e v →
      ¬c * e.confidence < 0.0 ∧ Led g direction f (fun _ => True) origin v :=
    fun hhop => h.sound.hop hg (fun _ _ => trivial) hid hhop
  refine ⟨h.toExploring.step hg hid hopen, h.sound.improveAll fun v x hx => ?_, ?_, ?_⟩
  · obtain ⟨-, e, hhop, rfl⟩ := (mem_offersAt hg).mp hx
    exact hoffer hhop
  · obtain ⟨x, hx⟩ := h.start
    exact improveAll_found _ hx
  · intro u v e hu hhop
    rcases mem_insert.mp hu with rfl | hu
    · by_cases hv : v ∈ settled.insert u
      · -- a hop back to what is settled
        rcases mem_insert.mp hv with rfl | hv
        · exact improveAll_found _ hid
        · obtain ⟨x, hx⟩ := h.found v hv
          exact improveAll_found _ hx
      · refine improveAll_offered best ((mem_offersAt hg).mpr ⟨hv, e, hhop, rfl⟩) ?_
        rw [hzero]
        exact (hoffer hhop).1
    · obtain ⟨x, hx⟩ := h.spread u v e hu hhop
      exact improveAll_found _ hx

/-- **Settling as many nodes as can be reached finds all that can be reached.** -/
theorem settle (hg : g.Weighed) (hzero : f.minConfidence = 0.0) :
    Explored g direction f (fun _ => True) origin
      (settle g direction f (g.hopLimit + 1) (Impact.started origin) ∅) := by
  obtain ⟨settled, h, hnone⟩ := exists_settled (P := Spreading g direction f origin)
    (fun h => h.toExploring) (fun h hnext => h.step hg hzero hnext) (g.hopLimit + 1)
    (started g direction f origin) (Nat.le_add_left _ _)
  exact h.explored hnone

end Spreading

/-- **What is found is what walks within the bound lead to.** -/
theorem explored_confidences [Confidence.Nonnegative κ] (hg : g.Weighed)
    (hzero : f.minConfidence = 0.0) :
    Explored g direction f f.Within origin (confidences g origin direction f) :=
  confidences_of_strategies (P := fun within => Explored g direction f within origin)
    (Explored.started g direction f origin) (fun h => h.round hg hzero) (Spreading.settle hg hzero)

theorem Explored.walk_foundHop
    (h : Explored g direction f f.Within origin (confidences g origin direction f))
    {es : List (Edge κ)} (hwalk : Walk (g.Hop direction fun e => f.admits e = true) origin es v)
    (hwithin : f.Within es.length) : Walk (FoundHop g origin direction f) origin es v := by
  induction hwalk with
  | stay => exact .stay
  | @step es u v e hwalk hhop ih =>
    have hfound := h.complete v ⟨es ++ [e], .step hwalk hhop, hwithin⟩
    rw [length_append] at hwithin
    exact .step (ih (hwithin.of_le (Nat.le_succ _))) ⟨hhop, hfound⟩

end

end Impact

/-! ### Distances -/

section

variable [Confidence κ] {g : Graph κ} {origin v : NodeId} {direction : Direction}
  {f : EdgeFilter κ}

def Graph.hopCounts (g : Graph κ) (direction : Direction) (f : EdgeFilter κ) (origin v : NodeId) :
    Set Nat :=
  {n | ∃ es : List (Edge κ),
    Walk (g.Hop direction fun e => f.allowsKind e.kind = true) origin es v ∧ es.length = n}

variable [Confidence.Nonnegative κ]

theorem Graph.Weighed.walk_admits_iff (hg : g.Weighed) (hzero : f.minConfidence = 0.0)
    {es : List (Edge κ)} : Walk (g.Hop direction fun e => f.admits e = true) origin es v ↔
      Walk (g.Hop direction fun e => f.allowsKind e.kind = true) origin es v := by
  have hadmits : ∀ e, g.edge? e.id = some e →
      (f.admits e ↔ f.allowsKind e.kind) := by
    intro e he
    have hle := Confidence.Nonnegative.zero_le_of_lt _
      (Confidence.zero_lt_of_isUnit (hg e.id e he).2)
    rw [EdgeFilter.admits, hzero, Bool.and_eq_true, decide_eq_true_iff]
    exact and_iff_left hle
  constructor
  · intro h
    exact h.mono fun u e v _ hhop => ⟨hhop.edge, (hadmits e hhop.edge).mp hhop.admits, hhop.leads⟩
  · intro h
    exact h.mono fun u e v _ hhop => ⟨hhop.edge, (hadmits e hhop.edge).mpr hhop.admits, hhop.leads⟩

namespace Impact

/-- A node is reached along found nodes in the numbers of hops of the walks to it. -/
theorem reaches_nextFound_iff (hg : g.Weighed) (hzero : f.minConfidence = 0.0) {n : Nat}
    (hwithin : f.Within n) :
    Reaches (nextFound g origin direction f) [origin] n v ↔ n ∈ g.hopCounts direction f origin v := by
  rw [Walk.reaches_iff (mem_nextFound hg)]
  refine exists_congr fun es => and_congr_left ?_
  rintro rfl
  rw [← hg.walk_admits_iff hzero]
  constructor
  · exact fun h => h.mono fun u e v _ hhop => hhop.1
  · exact fun h => (explored_confidences hg hzero).walk_foundHop h hwithin

/-- **The distances are the fewest hops of all walks**, within the bound. -/
theorem getElem?_distances (hg : g.Weighed) (hzero : f.minConfidence = 0.0) {d : Nat} :
    (distancesFrom (nextFound g origin direction f) (g.hops f.maxDepth) [origin])[v]? = some d ↔
      f.Within d ∧ IsLeast (g.hopCounts direction f origin v) d := by
  have hforth : ∀ d, (distancesFrom (nextFound g origin direction f) (g.hops f.maxDepth)
      [origin])[v]? = some d → f.Within d ∧ IsLeast (g.hopCounts direction f origin v) d := by
    intro d hd
    obtain ⟨hhops, hreaches, hleast⟩ := (getElem?_distancesFrom _).mp hd
    have hwithin : f.Within d := (Graph.le_hops_iff.mp hhops).2
    refine ⟨hwithin, (reaches_nextFound_iff hg hzero hwithin).mp hreaches, fun n hn => ?_⟩
    -- a walk of fewer hops would be within the bound
    by_contra hlt
    have hle := hwithin.of_le (Nat.le_of_not_le hlt)
    exact hlt (hleast n ((reaches_nextFound_iff hg hzero hle).mpr hn))
  refine ⟨hforth d, fun ⟨hwithin, hleast⟩ => ?_⟩
  obtain ⟨es, hwalk, rfl⟩ := hleast.1
  rw [← hg.walk_admits_iff hzero] at hwalk
  obtain ⟨d', hd'⟩ :=
    exists_distance hg ((explored_confidences hg hzero).walk_foundHop hwalk hwithin) hwithin
  rwa [(hforth d' hd').2.unique hleast] at hd'

end Impact

end

/-! ### Layers -/

namespace Impact

/-- **Layers in order**: none is empty, their distances increase, and the nodes of each are in the
order of their identities and at its distance. -/
structure Layered (layers : List (ImpactLayer κ)) : Prop where
  nonempty : ∀ layer ∈ layers, layer.nodes ≠ []
  ascending : layers.Pairwise fun a b => a.distance < b.distance
  ordered : ∀ layer ∈ layers, layer.nodes.Pairwise fun x y => compare x.node y.node = .lt
  distance : ∀ layer ∈ layers, ∀ x ∈ layer.nodes, x.distance = layer.distance

/-- **Layers of nodes that have all been found are in order.** -/
theorem layered_layersOf {distances : Distances} {best : Confidences κ}
    (h : ∀ (id : NodeId) (d : Nat), distances[id]? = some d → ∃ c : κ, best[id]? = some c) :
    Layered (layersOf distances best) where
  nonempty layer hlayer := by
    obtain ⟨distance, hne, ⟨id, hid⟩, rfl⟩ := mem_layersOf.mp hlayer
    obtain ⟨c, hc⟩ := h id distance hid
    exact ne_nil_of_mem (mem_nodes_layerAt.mpr
      (⟨hid, hne, rfl, hc⟩ : distances[(⟨id, distance, c⟩ : ImpactEntry κ).node]? = _ ∧ _))
  ascending := by
    rw [layersOf_eq, pairwise_map]
    exact (pairwise_sortedSet _).imp fun hlt => Nat.compare_eq_lt.mp hlt
  ordered layer hlayer := by
    obtain ⟨distance, -, -, rfl⟩ := mem_layersOf.mp hlayer
    refine Pairwise.filterMap _ ?_ ((ExtTreeMap.ordered_keys_toList.filter _).filter _)
    intro p q hlt x hx y hy
    obtain ⟨c, -, rfl⟩ := Option.map_eq_some_iff.mp hx
    obtain ⟨c', -, rfl⟩ := Option.map_eq_some_iff.mp hy
    exact hlt
  distance layer hlayer x hx := by
    obtain ⟨distance, -, -, rfl⟩ := mem_layersOf.mp hlayer
    exact (mem_nodes_layerAt.mp hx).2.2.1

theorem Layered.nodup {i : Impact κ} (h : Layered i.layers)
    (hdistance : ∀ x ∈ i.entries, ∀ y ∈ i.entries, x.node = y.node → x.distance = y.distance) :
    (i.entries.map (·.node)).Nodup := by
  rw [Nodup, pairwise_map, entries, pairwise_flatMap]
  constructor
  · intro layer hlayer
    refine (h.ordered layer hlayer).imp fun {x y} hlt heq => ?_
    have hself : compare y.node y.node = .eq := Std.ReflCmp.compare_self
    rw [heq, hself] at hlt
    cases hlt
  · refine h.ascending.imp_of_mem fun {a b} ha hb hlt x hx y hy heq => ?_
    have hsame := hdistance x (mem_flatMap.mpr ⟨a, ha, hx⟩) y
      (mem_flatMap.mpr ⟨b, hb, hy⟩) heq
    rw [h.distance a ha x hx, h.distance b hb y hy] at hsame
    omega

end Impact

/-! ### Impacts -/

section

variable {g : Graph κ} {direction : Direction} {f : EdgeFilter κ} {origin v : NodeId}

theorem Graph.zero_mem_hopCounts : 0 ∈ g.hopCounts direction f origin v ↔ v = origin := by
  constructor
  · rintro ⟨es, hwalk, hlength⟩
    obtain rfl := length_eq_zero_iff.mp hlength
    exact hwalk.of_nil
  · rintro rfl
    exact ⟨[], .stay, rfl⟩

theorem Graph.Closed.hasNode_of_hopCounts (h : g.Closed) (horigin : g.hasNode origin)
    {n : Nat} (hn : n ∈ g.hopCounts direction f origin v) : g.hasNode v := by
  obtain ⟨es, hwalk, -⟩ := hn
  cases hwalk with
  | stay => exact horigin
  | @step _ u _ e _ hhop =>
    obtain ⟨hsource, htarget⟩ := h e (mem_values.mpr ⟨e.id, hhop.edge⟩)
    rcases hhop.ends with ⟨-, rfl⟩ | ⟨-, rfl⟩
    · exact htarget
    · exact hsource

namespace Impact

variable [Confidence κ] [Confidence.Nonnegative κ] {i : Impact κ}

theorem exists_confidence (hg : g.Weighed) (hzero : f.minConfidence = 0.0) {n : Nat}
    (hn : n ∈ g.hopCounts direction f origin v) (hwithin : f.Within n) :
    ∃ c, (confidences g origin direction f)[v]? = some c := by
  obtain ⟨es, hwalk, rfl⟩ := hn
  exact (explored_confidences hg hzero).complete v
    ⟨es, (hg.walk_admits_iff hzero).mpr hwalk, hwithin⟩

section

variable (hg : g.Weighed) (hzero : f.minConfidence = 0.0)
  (hi : of g origin direction f = .ok i)

include hg hzero hi

theorem layered_of_eq_ok : Layered i.layers := by
  rw [layers_of_eq_ok hi]
  refine layered_layersOf fun id d hd => ?_
  obtain ⟨hwithin, hleast⟩ := (getElem?_distances hg hzero).mp hd
  exact exists_confidence hg hzero hleast.1 hwithin

theorem isLeast_of_mem_entries {x : ImpactEntry κ} (hx : x ∈ i.entries) :
    f.Within x.distance ∧ x.distance ≠ 0 ∧
      IsLeast (g.hopCounts direction f origin x.node) x.distance := by
  rw [of_eq_ok hi, mem_entries_layersOf, getElem?_distances hg hzero] at hx
  exact ⟨hx.1.1, hx.2.1, hx.1.2⟩

/-- **With a floor of zero an impact has the nodes that walks within the bound lead to**, other than
the origin. -/
theorem mem_nodes_iff : v ∈ i.entries.map (·.node) ↔
      v ≠ origin ∧ ∃ n ∈ g.hopCounts direction f origin v, f.Within n := by
  rw [mem_map]
  constructor
  · rintro ⟨x, hx, rfl⟩
    obtain ⟨hwithin, hne, hleast⟩ := isLeast_of_mem_entries hg hzero hi hx
    refine ⟨fun heq => hne ?_, x.distance, hleast.1, hwithin⟩
    exact Nat.le_zero.mp (hleast.2 (Graph.zero_mem_hopCounts.mpr heq))
  · rintro ⟨hv, n, hn, hwithin⟩
    obtain ⟨c, hc⟩ := exists_confidence hg hzero hn hwithin
    obtain ⟨d, hleast⟩ : ∃ d, IsLeast (g.hopCounts direction f origin v) d :=
      ⟨_, Nat.sInf_mem ⟨n, hn⟩, fun _ hm => Nat.sInf_le hm⟩
    refine ⟨⟨v, d, c⟩, ?_, rfl⟩
    rw [of_eq_ok hi, mem_entries_layersOf, getElem?_distances hg hzero]
    refine ⟨⟨hwithin.of_le (hleast.2 hn), hleast⟩, ?_, hc⟩
    rintro rfl
    exact hv (Graph.zero_mem_hopCounts.mp hleast.1)

end

end Impact

end

/-- **An impact with a floor of zero has what can be reached, in layers of the fewest hops.**  Take
a published graph, a node of it, a direction, and a filter with a floor of zero.  There is an
impact. It has the nodes other than the origin to which a walk within the bound leads along edges of
the kinds that the filter allows, each once.  The distance of a layer is the number of hops of the
shortest walk to each of its nodes.  No layer is empty, their distances increase, and in each the
nodes are in the order of their identities.  If the graph is closed, all are nodes of the graph. -/
theorem impact_layers_reachable_by_fewest_hops [Confidence κ] [Confidence.Nonnegative κ]
    {s : Store κ} (hs : s.Published) {origin : NodeId} (horigin : s.graph.hasNode origin = true)
    (direction : Direction) (f : EdgeFilter κ) (hzero : f.minConfidence = 0.0) :
    ∃ i : Impact κ, Impact.of s.graph origin direction f = .ok i ∧
      (∀ v : NodeId, v ∈ i.entries.map (·.node) ↔
        v ≠ origin ∧ ∃ n ∈ s.graph.hopCounts direction f origin v, f.Within n) ∧
      (i.entries.map (·.node)).Nodup ∧
      (∀ layer ∈ i.layers, ∀ x ∈ layer.nodes,
        IsLeast (s.graph.hopCounts direction f origin x.node) layer.distance) ∧
      Impact.Layered i.layers ∧
      (s.graph.Closed → ∀ x ∈ i.entries, s.graph.hasNode x.node = true) := by
  have hg := hs.weighed
  obtain ⟨i, hi⟩ := Impact.of_eq_ok_of_hasNode horigin direction f
  have hlayered := Impact.layered_of_eq_ok hg hzero hi
  have hleast : ∀ x ∈ i.entries,
      IsLeast (s.graph.hopCounts direction f origin x.node) x.distance :=
    fun x hx => (Impact.isLeast_of_mem_entries hg hzero hi hx).2.2
  refine ⟨i, hi, fun v => Impact.mem_nodes_iff hg hzero hi, ?_, ?_, hlayered, ?_⟩
  · refine hlayered.nodup fun x hx y hy heq => (hleast x hx).unique ?_
    rw [heq]
    exact hleast y hy
  · intro layer hlayer x hx
    rw [← hlayered.distance layer hlayer x hx]
    exact hleast x (List.mem_flatMap.mpr ⟨layer, hlayer, hx⟩)
  · exact fun hclosed x hx => hclosed.hasNode_of_hopCounts horigin (hleast x hx).1

/-- A method calls another one, which calls a third, which calls the first, with confidences so
small that their product as a double is zero. -/
def faintFile : Contribution Float :=
  methodFile ["A.a/0", "A.b/0", "A.c/0"]
    [callEdge "A.a/0" "A.b/0" 1e-200, callEdge "A.b/0" "A.c/0" 1e-200,
      callEdge "A.c/0" "A.a/0" 1e-200]

/-- The third method is reached from the first although the confidence of the walk is zero. -/
theorem faint_walk_reached :
    let g := (Store.afterCalls [.apply faintFile]).graph
    let a := NodeId.of .serviceMethod "A.a/0"
    let c := NodeId.of .serviceMethod "A.c/0"
    (g.hasNode a = true ∧ (Impact.confidences g a .backward .all)[c]? = some 0.0) ∧
      ∃ i : Impact Float, Impact.of g a .backward .all = .ok i ∧
        (∀ v : NodeId, v ∈ i.entries.map (·.node) ↔
          v ≠ a ∧ ∃ n ∈ g.hopCounts .backward .all a v, (.all : EdgeFilter Float).Within n) ∧
        Impact.Layered i.layers := by
  intro g a c
  have hgraph : g.hasNode a = true ∧
      (Impact.confidences g a .backward .all)[c]? = some 0.0 := by decide +kernel
  obtain ⟨i, hi, hreached, -, -, hlayered, -⟩ := impact_layers_reachable_by_fewest_hops
    (Store.published_afterCalls [.apply faintFile]) hgraph.1 .backward .all rfl
  exact ⟨hgraph, i, hi, hreached, hlayered⟩

end AppAtlas
