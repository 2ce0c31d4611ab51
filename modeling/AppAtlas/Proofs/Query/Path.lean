import AppAtlas.Proofs.Query.Layers
import Mathlib.Tactic.Ring

/-!
# Paths of the fewest hops

A path is built up layer by layer: each layer has the nodes one hop further, and for each of them
the best of the paths that the layer before offers.  The path that is kept has the fewest hops and
is nearly the most confident.  Nearly, since a path may give way to one that is less confident by no
more than the tolerance, and this can happen at each offer.  What is lost this way in one layer is
at most the tolerance for each edge.

The floor has no part in the search: only the path that is kept in the end is held against it.

* `GraphPath.le_of_preferred?`: what is kept falls short of no offer by more than the tolerance for
  each offer.
* `GraphPath.near_layerAt`: what may be lost on the way to a node.
* `GraphPath.search?_spec`: the path found, and when none is found.
-/

namespace AppAtlas

open List OrderedMap
open Std (ExtTreeMap ExtTreeSet)

abbrev Graph.KindHop (g : Graph Rat) (f : EdgeFilter Rat) : NodeId → Edge Rat → NodeId → Prop :=
  g.Hop .backward fun e => f.allowsKind e.kind = true

/-- **A walk of the fewest hops** along edges of the kinds that a filter allows. -/
structure Graph.Fewest (g : Graph Rat) (f : EdgeFilter Rat) (a : NodeId) (es : List (Edge Rat))
    (b : NodeId) : Prop where
  walk : Walk (g.KindHop f) a es b
  least : ∀ es' : List (Edge Rat), Walk (g.KindHop f) a es' b → es.length ≤ es'.length

variable {g : Graph Rat} {f : EdgeFilter Rat} {start goal u v : NodeId} {es : List (Edge Rat)}
  {e : Edge Rat} {d k : Nat}

namespace Graph.Fewest

theorem of_concat (h : g.Fewest f start (es ++ [e]) v) :
    ∃ u, g.Fewest f start es u ∧ g.KindHop f u e v := by
  obtain ⟨u, hwalk, hhop⟩ := h.walk.of_concat
  refine ⟨u, ⟨hwalk, fun es' hes' => ?_⟩, hhop⟩
  have hle := h.least (es' ++ [e]) (.step hes' hhop)
  rw [length_append, length_append] at hle
  omega

end Graph.Fewest

theorem Graph.exists_fewest (h : Walk (g.KindHop f) start es v) :
    ∃ es' : List (Edge Rat), g.Fewest f start es' v ∧ es'.length ≤ es.length := by
  classical
  have hsome : ∃ n, ∃ es' : List (Edge Rat), Walk (g.KindHop f) start es' v ∧
      es'.length = n := ⟨es.length, es, h, rfl⟩
  obtain ⟨es', hwalk, hlength⟩ := Nat.find_spec hsome
  refine ⟨es', ⟨hwalk, fun es'' hes'' => ?_⟩, ?_⟩
  · rw [hlength]
    exact Nat.find_min' hsome ⟨es'', hes'', rfl⟩
  · rw [hlength]
    exact Nat.find_min' hsome ⟨es, h, rfl⟩

namespace GraphPath

/-! ### Hop counts -/

theorem isLeast_iff_fewest : IsLeast (g.hopCounts .backward f start v) d ↔
    ∃ es : List (Edge Rat), g.Fewest f start es v ∧ es.length = d := by
  constructor
  · rintro ⟨⟨es, hwalk, rfl⟩, hleast⟩
    exact ⟨es, ⟨hwalk, fun es' hes' => hleast ⟨es', hes', rfl⟩⟩, rfl⟩
  · rintro ⟨es, hes, rfl⟩
    refine ⟨⟨es, hes.walk, rfl⟩, ?_⟩
    rintro n ⟨es', hes', rfl⟩
    exact hes.least es' hes'

/-- **Hop counts are the lengths of the walks of the fewest hops**, within the bound and no longer
than those to the goal. -/
theorem getElem?_hopCounts_of_fewest (hg : g.Weighed) (hwithin : f.Within es.length)
    (hes : g.Fewest f start es v)
    (hgoal : ∀ t ∈ g.hopCounts .backward f start goal, f.Within t → es.length ≤ t) :
    (hopCounts g f start goal)[v]? = some es.length :=
  (getElem?_hopCounts hg).mpr ⟨hwithin, isLeast_iff_fewest.mpr ⟨es, hes, rfl⟩, hgoal⟩

/-! ### The path of a walk -/

def along (start : NodeId) (es : List (Edge Rat)) : GraphPath Rat where
  nodes := start :: es.map (·.target)
  edges := es.map (·.id)
  confidence := confidenceAlong es

theorem stay_eq_along (start : NodeId) : stay start = along start [] := by
  have hone : (1.0 : Rat) = 1 := by norm_num
  show (⟨[start], [], (1.0 : Rat)⟩ : GraphPath Rat) = ⟨[start], [], 1⟩
  rw [hone]

theorem following_eq_along (start : NodeId) (es : List (Edge Rat)) :
    following start es = along start es := by
  induction es using reverseRecOn with
  | nil => exact stay_eq_along start
  | append_singleton es e ih =>
    rw [following_concat, ih, along, along, extend, confidenceAlong_concat, map_append,
      map_append]
    rfl

/-! ### The tolerance -/

theorem tolerance_pos : (0 : Rat) < tolerance := by
  show (0 : Rat) < 1e-12
  norm_num

theorem abs_le_of_size {x : Rat} (h : ¬(tolerance : Rat) < Confidence.size x) : |x| ≤ tolerance := by
  have hzero : (0.0 : Rat) = 0 := by norm_num
  rw [Confidence.size] at h
  split at h
  · next hneg =>
    have hneg : x < (0.0 : Rat) := hneg
    rw [abs_of_neg (hzero ▸ hneg)]
    exact not_lt.mp h
  · next hnot =>
    have hnot : ¬x < (0.0 : Rat) := hnot
    rw [abs_of_nonneg (not_lt.mp (hzero ▸ hnot))]
    exact not_lt.mp h

theorem le_of_betterThan {p held : GraphPath Rat} (h : p.betterThan held) :
    held.confidence ≤ p.confidence + tolerance := by
  have htolerance := tolerance_pos
  rw [betterThan] at h
  split at h
  · have hpos : (0.0 : Rat) < p.confidence - held.confidence := by simpa using h
    norm_num at hpos
    linarith
  · next hsize => linarith [neg_le_of_abs_le (abs_le_of_size hsize)]

theorem le_of_not_betterThan {p held : GraphPath Rat} (h : p.betterThan held = false) :
    p.confidence ≤ held.confidence + tolerance := by
  have htolerance := tolerance_pos
  rw [betterThan] at h
  split at h
  · have hnot : ¬(0.0 : Rat) < p.confidence - held.confidence := by simpa using h
    norm_num at hnot
    linarith
  · next hsize => linarith [le_of_abs_le (abs_le_of_size hsize)]

/-- **What is kept falls short of no offer by more than the tolerance for each offer.** -/
theorem le_of_preferred? {ps : List (GraphPath Rat)} {q : GraphPath Rat}
    (h : preferred? betterThan ps = some q) :
    ∀ p ∈ ps, p.confidence ≤ q.confidence + ps.length * tolerance := by
  induction ps using reverseRecOn generalizing q with
  | nil => exact fun p hp => absurd hp not_mem_nil
  | append_singleton ps last ih =>
    have hslack : ((ps ++ [last]).length : Rat) * tolerance =
        ps.length * tolerance + tolerance := by
      rw [length_append, length_singleton]
      push_cast
      ring
    have hlength : (0 : Rat) ≤ ps.length * tolerance :=
      mul_nonneg (Nat.cast_nonneg _) tolerance_pos.le
    have htolerance := tolerance_pos
    intro p hp
    rw [hslack]
    rcases preferred?_concat_cases h with ⟨rfl, hover⟩ | ⟨hheld, hnot⟩ <;>
      rcases mem_append.mp hp with hp | hp
    · obtain ⟨b, hb⟩ := exists_preferred? betterThan hp
      have hbefore := ih hb p hp
      have hstep := le_of_betterThan (hover b hb)
      linarith
    · rw [mem_singleton.mp hp]
      linarith
    · have hbefore := ih hheld p hp
      linarith
    · rw [mem_singleton.mp hp]
      have hstep := le_of_not_betterThan hnot
      linarith

theorem length_offersTo_le (hg : g.Weighed) {l : Layer Rat} (hnodup : l.nodes.Nodup) (v : NodeId) :
    (offersTo v (offersFrom g f l)).length ≤ g.hopLimit := by
  have hsub : ∀ u, ((offersAt g f l.best u).map (·.1)).Sublist (strongestEdges g f u) := by
    intro u
    rw [offersAt]
    cases l.best[u]? with
    | none => exact nil_sublist _
    | some p =>
      rw [Option.elim_some, map_map]
      exact (map_id (strongestEdges g f u)).symm ▸ Sublist.refl (strongestEdges g f u)
  have hstrongest : ∀ u, ∀ e ∈ (offersAt g f l.best u).map (·.1),
      g.Strongest f u e e.target := fun u e he => (mem_strongestEdges hg).mp ((hsub u).subset he)
  have hedges : ((offersFrom g f l).map (·.1)).length ≤ g.hopLimit := by
    rw [offersFrom, map_flatMap]
    refine Graph.length_le_hopLimit (nodup_flatMap.mpr ⟨fun u _ =>
      (nodup_strongestEdges g f u).sublist (hsub u), hnodup.imp ?_⟩) ?_
    · intro u w hne e hu hw
      exact hne ((hstrongest u e hu).source_eq.symm.trans (hstrongest w e hw).source_eq)
    · intro e he
      obtain ⟨u, -, hu⟩ := mem_flatMap.mp he
      exact (hstrongest u e hu).hop.edge
  rw [length_map] at hedges
  rw [offersTo, length_map]
  exact (length_filter_le _ _).trans hedges

/-! ### What may be lost -/

/-- What may be lost on the way to a node. -/
def slack (g : Graph Rat) (d : Nat) : Rat := d * g.hopLimit * tolerance

theorem slack_nonneg (g : Graph Rat) (d : Nat) : 0 ≤ slack g d :=
  mul_nonneg (mul_nonneg (Nat.cast_nonneg d) (Nat.cast_nonneg _)) tolerance_pos.le

theorem exists_concat_of_length {n : Nat} (h : es.length = n + 1) :
    ∃ init last, es = init ++ [last] ∧ init.length = n := by
  obtain ⟨init, last, rfl⟩ := eq_nil_or_concat' es |>.resolve_left (by
    rintro rfl
    exact absurd h (by simp))
  exact ⟨init, last, rfl, by simpa using h⟩

theorem slack_succ (g : Graph Rat) (d : Nat) :
    slack g (d + 1) = slack g d + g.hopLimit * tolerance := by
  rw [slack, slack]
  push_cast
  ring

/-- **What may be lost in one layer**: a node that is offered a continuation of a path falls short
of it by no more than the slack of the path and the tolerance for each edge. -/
theorem Laid.near_next (hg : g.Weighed) {l : Layer Rat} (h : Laid g f start goal k l)
    (hu : (hopCounts g f start goal)[u]? = some k)
    (hv : (hopCounts g f start goal)[v]? = some (k + 1))
    (hhop : g.KindHop f u e v) {q : GraphPath Rat} (hq : l.best[u]? = some q) {c : Rat}
    (hc : 0 ≤ c) (hnear : c ≤ q.confidence + slack g k) :
    ∃ p, (Layer.next g f (hopCounts g f start goal) (k + 1) l).best[v]? = some p ∧
      c * e.confidence ≤ p.confidence + slack g (k + 1) := by
  obtain ⟨es, -, hlength, hwalk, rfl⟩ := h.held u q hq
  obtain ⟨d, hd⟩ := exists_strongest hg hhop
  obtain ⟨hpos, hone⟩ := Confidence.isUnit_iff.mp (hg d.id d hd.hop.edge).2
  -- the node before offers its path, continued by the strongest edge
  have hoffer : following start (es ++ [d]) ∈ offersTo v (offersFrom g f l) :=
    (h.mem_offersTo hg).mpr
      ⟨u, es, d, Option.some.inj (hlength.symm.trans hu), hu, hwalk, hq, hd, rfl⟩
  obtain ⟨p, hp⟩ := exists_preferred? betterThan hoffer
  refine ⟨p, (h.getElem?_best_next v).1 hv ▸ hp, ?_⟩
  have hkept : (following start es).confidence * d.confidence ≤
      p.confidence + (offersTo v (offersFrom g f l)).length * tolerance := by
    have hle := le_of_preferred? hp _ hoffer
    rwa [following_concat] at hle
  have hlost : ((offersTo v (offersFrom g f l)).length : Rat) * tolerance ≤
      g.hopLimit * tolerance :=
    mul_le_mul_of_nonneg_right (Nat.cast_le.mpr (length_offersTo_le hg h.nodup v)) tolerance_pos.le
  rw [slack_succ]
  calc c * e.confidence
      ≤ c * d.confidence := mul_le_mul_of_nonneg_left (not_lt.mp (hd.greatest e hhop)) hc
    _ ≤ ((following start es).confidence + slack g k) * d.confidence :=
        mul_le_mul_of_nonneg_right hnear hpos.le
    _ = (following start es).confidence * d.confidence + slack g k * d.confidence := by ring
    _ ≤ (following start es).confidence * d.confidence + slack g k :=
        add_le_add le_rfl (mul_le_of_le_one_right (slack_nonneg g k) hone)
    _ ≤ p.confidence + (slack g k + g.hopLimit * tolerance) := by linarith

/-- **What may be lost on the way to a node**: each node up to a distance, and no further than the
goal, holds a path that falls short of no walk of the fewest hops by more than the slack. -/
theorem near_layerAt (hg : g.Weighed) (hle : es.length ≤ k) (hwithin : f.Within es.length)
    (hes : g.Fewest f start es v)
    (hgoal : ∀ t ∈ g.hopCounts .backward f start goal, f.Within t → es.length ≤ t) :
    ∃ p, (layerAt g f start goal k).best[v]? = some p ∧
      confidenceAlong es ≤ p.confidence + slack g es.length := by
  induction k generalizing es v with
  | zero =>
    obtain rfl := length_eq_zero_iff.mp (Nat.le_zero.mp hle)
    obtain rfl := hes.walk.of_nil
    refine ⟨along v [], ?_, le_add_of_nonneg_right (slack_nonneg g 0)⟩
    exact ((Layer.getElem?_best_first v v).trans (if_pos rfl)).trans
      (congrArg some (stay_eq_along v))
  | succ k ih =>
    have hlaid := laid_layerAt hg f start goal k
    have hcount := getElem?_hopCounts_of_fewest hg hwithin hes hgoal
    rw [layerAt_succ]
    rcases Nat.lt_or_eq_of_le hle with hlt | hlength
    · -- nearer nodes hold what they held
      rw [(hlaid.getElem?_best_next v).2 (by rw [hcount]; simp; omega)]
      exact ih (Nat.le_of_lt_succ hlt) hwithin hes hgoal
    · obtain ⟨init, last, rfl, rfl⟩ := exists_concat_of_length hlength
      obtain ⟨u, hinit, hhop⟩ := hes.of_concat
      rw [hlength] at hcount hwithin hgoal ⊢
      have hshorter : f.Within init.length := hwithin.of_le (Nat.le_succ _)
      have hnearer := fun t ht htwithin => Nat.le_of_succ_le (hgoal t ht htwithin)
      obtain ⟨q, hq, hnear⟩ := ih (Nat.le_refl _) hshorter hinit hnearer
      rw [confidenceAlong_concat]
      exact hlaid.near_next hg (getElem?_hopCounts_of_fewest hg hshorter hinit hnearer)
        hcount hhop hq (hg.units hinit.walk).isUnit.1.le hnear

/-! ### The path found -/

theorem exists_fewest_of_held (hg : g.Weighed) {p : GraphPath Rat}
    (h : (layerAt g f start goal k).best[v]? = some p) :
    ∃ es : List (Edge Rat), g.Fewest f start es v ∧ f.Within es.length ∧ p = along start es := by
  obtain ⟨es, -, hcount, hwalk, rfl⟩ := (laid_layerAt hg f start goal k).held v p h
  obtain ⟨hwithin, hleast, -⟩ := (getElem?_hopCounts hg).mp hcount
  exact ⟨es, ⟨walk_kinds hwalk, fun es' hes' => hleast.2 ⟨es', hes', rfl⟩⟩, hwithin,
    following_eq_along start es⟩

/-- **The path found** is that of a walk of the fewest hops, within the bound, at or above the
floor.  If none is found, every such walk is below the floor or not far above it, and if there is
one, one is below. -/
theorem search?_spec (hg : g.Weighed) (f : EdgeFilter Rat) (start goal : NodeId) :
    (∀ p, search? g f start goal = some p →
      ∃ es : List (Edge Rat), g.Fewest f start es goal ∧ f.Within es.length ∧
        f.minConfidence ≤ confidenceAlong es ∧ p = along start es) ∧
    (search? g f start goal = none → ∀ es : List (Edge Rat), g.Fewest f start es goal →
      f.Within es.length → confidenceAlong es < f.minConfidence + slack g es.length ∧
        ∃ es' : List (Edge Rat), g.Fewest f start es' goal ∧
          confidenceAlong es' < f.minConfidence) := by
  constructor
  · intro p hp
    rw [search?_eq] at hp
    obtain ⟨far, -, hp⟩ := Option.bind_eq_some_iff.mp hp
    obtain ⟨hbest, hfloor⟩ := Option.filter_eq_some_iff.mp hp
    obtain ⟨es, hes, hwithin, rfl⟩ := exists_fewest_of_held hg hbest
    exact ⟨es, hes, hwithin, of_decide_eq_true hfloor, rfl⟩
  · intro hnone es hes hwithin
    have hleast := isLeast_iff_fewest.mpr ⟨es, hes, rfl⟩
    have hcount := (getElem?_hopCounts_goal hg).mpr ⟨hwithin, hleast⟩
    obtain ⟨p, hp, hnear⟩ := near_layerAt hg (Nat.le_refl _) hwithin hes fun t ht _ => hleast.2 ht
    obtain ⟨es', hes', -, rfl⟩ := exists_fewest_of_held hg hp
    rw [search?_eq, hcount, Option.bind_some, hp, Option.filter_some] at hnone
    have hbelow : confidenceAlong es' < f.minConfidence := by
      by_contra hnot
      have hfloor : f.minConfidence ≤ (along start es').confidence := not_lt.mp hnot
      rw [if_pos (by simpa using hfloor)] at hnone
      cases hnone
    refine ⟨hnear.trans_lt ?_, es', hes', hbelow⟩
    exact add_lt_add_of_lt_of_le hbelow le_rfl

end GraphPath

end AppAtlas
