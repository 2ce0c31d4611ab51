import AppAtlas.Proofs.Query.Reachable
import AppAtlas.Proofs.Query.Seeking
import AppAtlas.Proofs.Query.Strongest

/-!
# Paths layer by layer

A path of the fewest hops is built up in layers.  A layer has the nodes at one distance, each with
the path that is kept for it.  The next layer is made by offers: every node offers its path,
continued by the strongest edge to each successor, and a node at the next distance keeps the offer
that is better than those before it.

What is said here holds for any number type.  It does not matter which offers are better: whatever
is kept has been offered.  So each node ends with the path of a walk along strongest edges, and this
walk has the fewest hops, since the layers follow the hop counts.

* `GraphPath.Laid`: the layer at a distance; `Laid.next` for one layer, `laid_layerAt` for all.
* `GraphPath.search?_eq`: the path sought is the one that the goal holds in its layer.
-/

namespace AppAtlas

open List OrderedMap
open Std (ExtTreeMap)

variable {κ : Type}

/-! ### Offers to a layer -/

namespace GraphPath

section

variable {g : Graph κ} {f : EdgeFilter κ} {distances : Distances} {k : Nat} {l : Layer κ}
  {id v : NodeId} {p : GraphPath κ} {offers : List (Edge κ × GraphPath κ)}

def offersTo (v : NodeId) (offers : List (Edge κ × GraphPath κ)) : List (GraphPath κ) :=
  (offers.filter (·.1.target == v)).map (·.2)

theorem mem_offersTo : p ∈ offersTo v offers ↔ ∃ e, (e, p) ∈ offers ∧ e.target = v := by
  simp only [offersTo, mem_map, mem_filter, beq_iff_eq]
  constructor
  · rintro ⟨⟨e, p⟩, ⟨hmem, htarget⟩, rfl⟩
    exact ⟨e, hmem, htarget⟩
  · rintro ⟨e, hmem, htarget⟩
    exact ⟨(e, p), ⟨hmem, htarget⟩, rfl⟩

theorem offersTo_filter (hv : distances[v]? = some k) :
    offersTo v (offers.filter fun o => distances[o.1.target]? == some k) = offersTo v offers := by
  rw [offersTo, offersTo, filter_filter]
  congr 1
  refine filter_congr fun o _ => ?_
  by_cases ho : o.1.target = v
  · simp [ho, hv]
  · simp [ho]

variable [Confidence κ]

/-- A layer with some paths taken into account, each with its last edge. -/
def Layer.offerAll (l : Layer κ) (offers : List (Edge κ × GraphPath κ)) : Layer κ :=
  offers.foldl (fun l o => l.offer o.1.target o.2) l

theorem Layer.getElem?_best_offer (l : Layer κ) (id : NodeId) (p : GraphPath κ) (v : NodeId) :
    (l.offer id p).best[v]? = if id = v then prefer betterThan l.best[v]? p else l.best[v]? := by
  rw [Layer.offer, ExtTreeMap.get?_eq_getElem?]
  by_cases hv : id = v
  · subst hv
    rw [if_pos rfl, prefer]
    cases hheld : l.best[id]? with
    | none => exact (getElem?_insert_of _ _ _ _).trans (if_pos rfl)
    | some held =>
      dsimp only [Option.elim_some]
      by_cases hbetter : p.betterThan held
      · rw [if_pos hbetter, if_pos hbetter]
        exact (getElem?_insert_of _ _ _ _).trans (if_pos rfl)
      · rw [if_neg hbetter, if_neg hbetter, hheld]
  · rw [if_neg hv]
    cases hheld : l.best[id]? with
    | none => exact (getElem?_insert_of _ _ _ _).trans (if_neg hv)
    | some held =>
      dsimp only
      by_cases hbetter : p.betterThan held
      · rw [if_pos hbetter]
        exact (getElem?_insert_of _ _ _ _).trans (if_neg hv)
      · rw [if_neg hbetter]

theorem Layer.nodes_offer (l : Layer κ) (id : NodeId) (p : GraphPath κ) :
    (l.offer id p).nodes = if l.best[id]? = none then l.nodes ++ [id] else l.nodes := by
  rw [Layer.offer, ExtTreeMap.get?_eq_getElem?]
  cases hheld : l.best[id]? with
  | none => rfl
  | some held =>
    dsimp only
    by_cases hbetter : p.betterThan held
    · rw [if_pos hbetter, if_neg (by simp)]
    · rw [if_neg hbetter, if_neg (by simp)]

/-- **Each node keeps what is preferred** of what it held and what it is offered. -/
theorem Layer.getElem?_best_offerAll (l : Layer κ) (offers : List (Edge κ × GraphPath κ))
    (v : NodeId) :
    (l.offerAll offers).best[v]? = (offersTo v offers).foldl (prefer betterThan) l.best[v]? := by
  induction offers generalizing l with
  | nil => rfl
  | cons o offers ih =>
    have hrest := ih (l.offer o.1.target o.2)
    rw [Layer.getElem?_best_offer] at hrest
    rw [offersTo, filter_cons]
    by_cases hv : o.1.target = v
    · rw [if_pos hv] at hrest
      rw [if_pos (by simpa using hv), map_cons, foldl_cons]
      exact hrest
    · rw [if_neg hv] at hrest
      rw [if_neg (by simpa using hv)]
      exact hrest

theorem Layer.getElem?_best_offerAll_of_ne (l : Layer κ) (h : ∀ o ∈ offers, o.1.target ≠ v) :
    (l.offerAll offers).best[v]? = l.best[v]? := by
  have hnone : offersTo v offers = [] := by
    rw [offersTo, map_eq_nil_iff, filter_eq_nil_iff]
    exact fun o ho => by simpa using h o ho
  rw [Layer.getElem?_best_offerAll, hnone, foldl_nil]

theorem Layer.nodes_offerAll (l : Layer κ) (offers : List (Edge κ × GraphPath κ))
    (hknown : ∀ v ∈ l.nodes, l.best[v]? ≠ none) (hnodup : l.nodes.Nodup) :
    (l.offerAll offers).nodes.Nodup ∧ ∀ v, v ∈ (l.offerAll offers).nodes ↔
        v ∈ l.nodes ∨ l.best[v]? = none ∧ ∃ o ∈ offers, o.1.target = v := by
  induction offers generalizing l with
  | nil => exact ⟨hnodup, fun v => by simp [Layer.offerAll]⟩
  | cons o offers ih =>
    have hbest := Layer.getElem?_best_offer l o.1.target o.2
    have hnone : ∀ v, (l.offer o.1.target o.2).best[v]? = none ↔
        l.best[v]? = none ∧ o.1.target ≠ v := by
      intro v
      rw [hbest v]
      split
      · next hv => simp [prefer, hv]
      · next hv => simp [hv]
    have hmem : ∀ v, v ∈ (l.offer o.1.target o.2).nodes ↔
        v ∈ l.nodes ∨ l.best[v]? = none ∧ o.1.target = v := by
      intro v
      rw [Layer.nodes_offer]
      split
      · next hnew =>
        rw [mem_append, mem_singleton]
        refine or_congr_right ⟨fun hv => ⟨hv ▸ hnew, hv.symm⟩, fun hv => hv.2.symm⟩
      · next hheld =>
        refine (or_iff_left ?_).symm
        rintro ⟨hnone, rfl⟩
        exact hheld hnone
    have hnodup' : (l.offer o.1.target o.2).nodes.Nodup := by
      rw [Layer.nodes_offer]
      split
      · next hnew =>
        refine nodup_append.mpr ⟨hnodup, nodup_singleton _, ?_⟩
        rintro v hv v' hv' rfl
        exact hknown v hv (mem_singleton.mp hv' ▸ hnew)
      · exact hnodup
    obtain ⟨hfinal, hnodes⟩ := ih (l.offer o.1.target o.2) (fun v hv hheld => by
      obtain ⟨hbefore, hne⟩ := (hnone v).mp hheld
      rcases (hmem v).mp hv with hv | hv
      · exact hknown v hv hbefore
      · exact hne hv.2) hnodup'
    refine ⟨hfinal, fun v => (hnodes v).trans ?_⟩
    rw [hmem v, hnone v, exists_mem_cons_iff]
    by_cases hv : o.1.target = v
    · simp [hv]
    · simp [hv]

def offersAt (g : Graph κ) (f : EdgeFilter κ) (best : ExtTreeMap NodeId (GraphPath κ) compare)
    (u : NodeId) : List (Edge κ × GraphPath κ) :=
  best[u]?.elim [] fun p => (strongestEdges g f u).map fun e => (e, p.extend e)

def offersFrom (g : Graph κ) (f : EdgeFilter κ) (l : Layer κ) : List (Edge κ × GraphPath κ) :=
  l.nodes.flatMap (offersAt g f l.best)

def offerFrom (g : Graph κ) (f : EdgeFilter κ) (distances : Distances) (k : Nat)
    (new : Layer κ) (u : NodeId) : Layer κ :=
  new.best[u]?.elim new fun p =>
    ((strongestEdges g f u).filter fun e => distances.get? e.target == some k).foldl
      (fun new e => new.offer e.target (p.extend e)) new

theorem Layer.next_eq (g : Graph κ) (f : EdgeFilter κ) (distances : Distances) (k : Nat)
    (l : Layer κ) : Layer.next g f distances k l =
      l.nodes.foldl (offerFrom g f distances k) { l with nodes := [] } := by
  rw [Layer.next]
  congr 1
  funext new u
  rw [offerFrom, ← ExtTreeMap.get?_eq_getElem?]
  cases new.best.get? u <;> rfl

/-- **The next layer has had all offers** to nodes at the next distance. -/
theorem Layer.next_eq_offerAll (h : ∀ u ∈ l.nodes, distances[u]? ≠ some k) :
    Layer.next g f distances k l = { l with nodes := [] }.offerAll
      ((offersFrom g f l).filter fun o => distances[o.1.target]? == some k) := by
  have hfold : ∀ (nodes : List NodeId) (new : Layer κ), (∀ u ∈ nodes, distances[u]? ≠ some k) →
      (∀ u ∈ nodes, new.best[u]? = l.best[u]?) →
      nodes.foldl (offerFrom g f distances k) new = new.offerAll
        ((nodes.flatMap (offersAt g f l.best)).filter
          fun o => distances[o.1.target]? == some k) := by
    intro nodes
    induction nodes with
    | nil => exact fun new _ _ => rfl
    | cons u nodes ih =>
      intro new hapart hsame
      have hoffers : offerFrom g f distances k new u = new.offerAll
          ((offersAt g f l.best u).filter fun o => distances[o.1.target]? == some k) := by
        rw [offerFrom, hsame u mem_cons_self, offersAt]
        cases l.best[u]? with
        | none => rfl
        | some p =>
          rw [Option.elim_some, Option.elim_some, filter_map, Layer.offerAll, foldl_map]
          rfl
      -- what the node offers goes to the next distance, so what the others hold stays
      have hkept : ∀ w ∈ nodes, (offerFrom g f distances k new u).best[w]? = l.best[w]? := by
        intro w hw
        rw [hoffers, Layer.getElem?_best_offerAll_of_ne, hsame w (mem_cons_of_mem u hw)]
        intro o ho heq
        have htarget := (mem_filter.mp ho).2
        rw [heq, beq_iff_eq] at htarget
        exact hapart w (mem_cons_of_mem u hw) htarget
      rw [foldl_cons, ih _ (fun w hw => hapart w (mem_cons_of_mem u hw)) hkept, hoffers,
        Layer.offerAll, Layer.offerAll, Layer.offerAll, ← foldl_append, ← filter_append,
        flatMap_cons]
  rw [Layer.next_eq]
  exact hfold l.nodes _ h fun _ _ => rfl

section

variable (hapart : ∀ u ∈ l.nodes, distances[u]? ≠ some k)
  (hnone : ∀ v : NodeId, distances[v]? = some k → l.best[v]? = none)

include hapart hnone

/-- **What a node holds in the next layer**: of what it is offered, what is preferred, if it is at
the next distance, and what it held before, if it is not. -/
theorem Layer.getElem?_best_next (v : NodeId) :
    (distances[v]? = some k → (Layer.next g f distances k l).best[v]? =
      preferred? betterThan (offersTo v (offersFrom g f l))) ∧
    (distances[v]? ≠ some k → (Layer.next g f distances k l).best[v]? = l.best[v]?) := by
  rw [Layer.next_eq_offerAll hapart]
  constructor
  · intro hv
    have hheld : ({ l with nodes := [] } : Layer κ).best[v]? = none := hnone v hv
    rw [Layer.getElem?_best_offerAll, offersTo_filter hv, hheld, preferred?]
  · intro hv
    refine Layer.getElem?_best_offerAll_of_ne _ fun o ho heq => hv ?_
    have htarget := (mem_filter.mp ho).2
    rwa [heq, beq_iff_eq] at htarget

theorem Layer.nodes_next : (Layer.next g f distances k l).nodes.Nodup ∧
      ∀ v : NodeId, v ∈ (Layer.next g f distances k l).nodes ↔
        distances[v]? = some k ∧ ∃ p : GraphPath κ, p ∈ offersTo v (offersFrom g f l) := by
  rw [Layer.next_eq_offerAll hapart]
  obtain ⟨hnodup, hmem⟩ := Layer.nodes_offerAll { l with nodes := [] }
    ((offersFrom g f l).filter fun o => distances[o.1.target]? == some k)
    (fun v hv => absurd hv not_mem_nil) nodup_nil
  refine ⟨hnodup, fun v => (hmem v).trans ?_⟩
  simp only [not_mem_nil, false_or, mem_filter, beq_iff_eq, mem_offersTo]
  constructor
  · rintro ⟨-, ⟨e, p⟩, ⟨hmem, hdistance⟩, rfl⟩
    exact ⟨hdistance, p, e, hmem, rfl⟩
  · rintro ⟨hdistance, p, e, hmem, rfl⟩
    exact ⟨hnone _ hdistance, (e, p), ⟨hmem, hdistance⟩, rfl⟩

end

end

end GraphPath

/-! ### Layers -/

theorem Graph.isLeast_hopCounts_pred {g : Graph κ} {f : EdgeFilter κ} {start u v : NodeId}
    {es : List (Edge κ)} {e : Edge κ}
    (hleast : IsLeast (g.hopCounts .backward f start v) (es.length + 1))
    (hwalk : Walk (g.Hop .backward fun e => f.allowsKind e.kind = true) start es u)
    (hhop : g.Hop .backward (fun e => f.allowsKind e.kind = true) u e v) :
    IsLeast (g.hopCounts .backward f start u) es.length := by
  refine ⟨⟨es, hwalk, rfl⟩, ?_⟩
  rintro n ⟨es', hwalk', rfl⟩
  have hle := hleast.2 ⟨es' ++ [e], .step hwalk' hhop, rfl⟩
  rw [length_append, length_singleton] at hle
  omega

namespace GraphPath

section

variable [Confidence κ] {g : Graph κ} {f : EdgeFilter κ} {start goal u v : NodeId} {d k : Nat}
  {l : Layer κ} {p : GraphPath κ} {es : List (Edge κ)} {e : Edge κ}

theorem mem_onward (hg : g.Weighed) (u v : NodeId) : v ∈ onward g f u ↔
    ∃ e, g.Hop .backward (fun e => f.allowsKind e.kind = true) u e v := by
  simp only [onward, mem_map, ← mem_edgesBetween hg, edgesBetween, mem_filter, beq_iff_eq]

theorem isDistance_onward_iff (hg : g.Weighed) : IsDistance (onward g f) [start] v d ↔
    IsLeast (g.hopCounts .backward f start v) d := by
  rw [IsDistance]
  simp only [Walk.reaches_iff (mem_onward hg)]
  rfl

/-- A node at a distance is the start or the target of an edge, so there are not more such nodes. -/
theorem length_le_of_distances (hg : g.Weighed) {l : List NodeId} (hnodup : l.Nodup)
    (hl : ∀ v ∈ l, ∃ d, IsDistance (onward g f) [start] v d) : l.length ≤ g.hopLimit + 1 := by
  have hsub : l ⊆ start :: g.edgeList.map (·.target) := by
    intro v hv
    obtain ⟨d, hd⟩ := hl v hv
    cases hd.1 with
    | start hstart => exact mem_singleton.mp hstart ▸ mem_cons_self
    | hop _ hmem =>
      obtain ⟨e, hhop⟩ := (mem_onward hg _ v).mp hmem
      obtain rfl := (Direction.leads_backward.mp hhop.leads).2
      exact mem_cons_of_mem start (mem_map_of_mem (mem_values.mpr ⟨e.id, hhop.edge⟩))
  have hlength := (hnodup.subperm hsub).length_le
  rwa [length_cons, length_map, g.length_edgeList] at hlength

/-- **Hop counts are the fewest hops** along edges of the kinds that a filter allows, of the nodes
within the bound that are no further than the goal. -/
theorem getElem?_hopCounts (hg : g.Weighed) : (hopCounts g f start goal)[v]? = some d ↔
    f.Within d ∧ IsLeast (g.hopCounts .backward f start v) d ∧
      ∀ t ∈ g.hopCounts .backward f start goal, f.Within t → d ≤ t := by
  rw [hopCounts, (Seeks.first _ start goal f.maxDepth).getElem?_seek
    (fun _ => length_le_of_distances hg) (Nat.le_add_left _ _)]
  constructor
  · rintro ⟨hd, hwithin, hgoal⟩
    refine ⟨hwithin, (isDistance_onward_iff hg).mp hd, fun t ht htwithin => ?_⟩
    obtain ⟨t', hle, ht'⟩ :=
      IsDistance.exists_of_reaches ((Walk.reaches_iff (mem_onward hg)).mpr ht)
    exact (hgoal t' ht' (htwithin.of_le hle)).trans hle
  · rintro ⟨hwithin, hleast, hgoal⟩
    exact ⟨(isDistance_onward_iff hg).mpr hleast, hwithin, fun t ht htwithin =>
      hgoal t ((isDistance_onward_iff hg).mp ht).1 htwithin⟩

theorem getElem?_hopCounts_goal (hg : g.Weighed) : (hopCounts g f start goal)[goal]? = some d ↔
    f.Within d ∧ IsLeast (g.hopCounts .backward f start goal) d := by
  rw [getElem?_hopCounts hg]
  exact and_congr_right fun _ => and_iff_left_of_imp fun hleast t ht _ => hleast.2 ht

theorem walk_kinds (h : Walk (g.Strongest f) start es v) :
    Walk (g.Hop .backward fun e => f.allowsKind e.kind = true) start es v :=
  h.mono fun _ _ _ _ hhop => hhop.hop

def following (start : NodeId) (es : List (Edge κ)) : GraphPath κ := es.foldl extend (stay start)

section

variable (start : NodeId) (es : List (Edge κ))

theorem following_concat (e : Edge κ) :
    following start (es ++ [e]) = (following start es).extend e := by
  rw [following, foldl_append, following, foldl_cons, foldl_nil]

theorem nodes_following : (following start es).nodes = start :: es.map (·.target) := by
  induction es using reverseRecOn with
  | nil => rfl
  | append_singleton es e ih => rw [following_concat, extend, ih, map_append]; rfl

theorem edges_following : (following start es).edges = es.map (·.id) := by
  induction es using reverseRecOn with
  | nil => rfl
  | append_singleton es e ih => rw [following_concat, extend, ih, map_append]; rfl

end

def Layer.first (start : NodeId) : Layer κ :=
  ⟨ExtTreeMap.ofList [(start, stay start)] compare, [start]⟩

theorem Layer.getElem?_best_first (start v : NodeId) :
    (Layer.first start : Layer κ).best[v]? = if start = v then some (stay start) else none := by
  rw [Layer.first, ExtTreeMap.ofList_singleton, getElem?_insert_of, ExtTreeMap.getElem?_empty]

/-- **The layer at a distance**: its nodes are those at the distance, and each node up to it holds
the path of a walk along strongest edges that has as many hops as its distance. -/
structure Laid (g : Graph κ) (f : EdgeFilter κ) (start goal : NodeId) (k : Nat) (l : Layer κ) :
    Prop where
  nodes : ∀ v : NodeId, v ∈ l.nodes ↔ (hopCounts g f start goal)[v]? = some k
  nodup : l.nodes.Nodup
  held : ∀ (v : NodeId) (p : GraphPath κ), l.best[v]? = some p →
    ∃ es : List (Edge κ), es.length ≤ k ∧ (hopCounts g f start goal)[v]? = some es.length ∧
      Walk (g.Strongest f) start es v ∧ p = following start es
  found : ∀ (v : NodeId) (d : Nat), d ≤ k → (hopCounts g f start goal)[v]? = some d →
    ∃ p : GraphPath κ, l.best[v]? = some p

namespace Laid

theorem first (hg : g.Weighed) (f : EdgeFilter κ) (start goal : NodeId) :
    Laid g f start goal 0 (Layer.first start) := by
  have hcount : ∀ v, (hopCounts g f start goal)[v]? = some 0 ↔ v = start := by
    intro v
    rw [getElem?_hopCounts hg]
    refine ⟨fun h => Graph.zero_mem_hopCounts.mp h.2.1.1, fun h => ?_⟩
    exact ⟨fun m _ => Nat.zero_le m, ⟨Graph.zero_mem_hopCounts.mpr h, fun n _ => Nat.zero_le n⟩,
      fun t _ _ => Nat.zero_le t⟩
  refine ⟨fun v => mem_singleton.trans (hcount v).symm, nodup_singleton start, ?_, ?_⟩
  · intro v p hp
    rw [Layer.getElem?_best_first] at hp
    split at hp
    · next hv =>
      subst hv
      exact ⟨[], Nat.le_refl 0, (hcount start).mpr rfl, .stay, (Option.some.inj hp).symm⟩
    · cases hp
  · intro v d hd hv
    obtain rfl := Nat.le_zero.mp hd
    exact ⟨stay start, by rw [Layer.getElem?_best_first, if_pos ((hcount v).mp hv).symm]⟩

theorem getElem?_best_of_next (h : Laid g f start goal k l)
    (hv : (hopCounts g f start goal)[v]? = some (k + 1)) : l.best[v]? = none := by
  cases hp : l.best[v]? with
  | none => rfl
  | some p =>
    obtain ⟨es, hle, hes, -⟩ := h.held v p hp
    have := Option.some.inj (hes.symm.trans hv)
    omega

theorem apart (h : Laid g f start goal k l) :
    ∀ u ∈ l.nodes, (hopCounts g f start goal)[u]? ≠ some (k + 1) := by
  intro u hu
  rw [(h.nodes u).mp hu]
  simp

theorem getElem?_best_next (h : Laid g f start goal k l) (v : NodeId) :
    ((hopCounts g f start goal)[v]? = some (k + 1) →
      (Layer.next g f (hopCounts g f start goal) (k + 1) l).best[v]? =
        preferred? betterThan (offersTo v (offersFrom g f l))) ∧
    ((hopCounts g f start goal)[v]? ≠ some (k + 1) →
      (Layer.next g f (hopCounts g f start goal) (k + 1) l).best[v]? = l.best[v]?) :=
  Layer.getElem?_best_next h.apart (fun _ hv => h.getElem?_best_of_next hv) v

theorem mem_offersFrom [Confidence.Ranked κ] (hg : g.Weighed) (h : Laid g f start goal k l) :
    (e, p) ∈ offersFrom g f l ↔ g.Strongest f e.source e e.target ∧
      ∃ es : List (Edge κ), es.length = k ∧ (hopCounts g f start goal)[e.source]? = some k ∧
        Walk (g.Strongest f) start es e.source ∧ l.best[e.source]? = some (following start es) ∧
        p = following start (es ++ [e]) := by
  have hat : ∀ u, (e, p) ∈ offersAt g f l.best u ↔
      ∃ q, l.best[u]? = some q ∧ g.Strongest f u e e.target ∧ q.extend e = p := by
    intro u
    rw [offersAt]
    cases l.best[u]? with
    | none => simp
    | some q => simp [mem_strongestEdges hg]
  rw [offersFrom, mem_flatMap]
  constructor
  · rintro ⟨u, hu, hmem⟩
    obtain ⟨q, hq, hstrongest, rfl⟩ := (hat u).mp hmem
    obtain rfl := hstrongest.source_eq
    have hcount := (h.nodes e.source).mp hu
    obtain ⟨es, -, hlength, hwalk, rfl⟩ := h.held e.source q hq
    have hk : es.length = k := Option.some.inj (hlength.symm.trans hcount)
    exact ⟨hstrongest, es, hk, hcount, hwalk, hq, (following_concat start es e).symm⟩
  · rintro ⟨hstrongest, es, -, hcount, -, hq, rfl⟩
    exact ⟨e.source, (h.nodes e.source).mpr hcount,
      (hat e.source).mpr ⟨following start es, hq, hstrongest, (following_concat start es e).symm⟩⟩

variable [Confidence.Ranked κ]

section

variable (hg : g.Weighed) (h : Laid g f start goal k l)

include hg h

/-- **The offers to a node at the next distance** are the paths held one hop before, continued by a
strongest edge. -/
theorem mem_offersTo : p ∈ offersTo v (offersFrom g f l) ↔ ∃ u es e,
      es.length = k ∧ (hopCounts g f start goal)[u]? = some k ∧ Walk (g.Strongest f) start es u ∧
        l.best[u]? = some (following start es) ∧ g.Strongest f u e v ∧
        p = following start (es ++ [e]) := by
  rw [GraphPath.mem_offersTo]
  constructor
  · rintro ⟨e, hmem, rfl⟩
    obtain ⟨hstrongest, es, hlength, hcount, hwalk, hbest, rfl⟩ := (h.mem_offersFrom hg).mp hmem
    exact ⟨e.source, es, e, hlength, hcount, hwalk, hbest, hstrongest, rfl⟩
  · rintro ⟨u, es, e, hlength, hcount, hwalk, hbest, hstrongest, rfl⟩
    obtain rfl := hstrongest.source_eq
    obtain rfl := hstrongest.target_eq
    exact ⟨e, (h.mem_offersFrom hg).mpr ⟨hstrongest, es, hlength, hcount, hwalk, hbest, rfl⟩, rfl⟩

theorem exists_offer (hv : (hopCounts g f start goal)[v]? = some (k + 1)) :
    ∃ p, p ∈ offersTo v (offersFrom g f l) := by
  obtain ⟨hwithin, hleast, hgoal⟩ := (getElem?_hopCounts hg).mp hv
  obtain ⟨es, hwalk, hlength⟩ := hleast.1
  cases hwalk with
  | stay => cases hlength
  | @step es u _ e hwalk hhop =>
    rw [length_append, length_singleton, Nat.add_right_cancel_iff] at hlength
    subst hlength
    have hcount : (hopCounts g f start goal)[u]? = some es.length := (getElem?_hopCounts hg).mpr
      ⟨hwithin.of_le (Nat.le_succ _), Graph.isLeast_hopCounts_pred hleast hwalk hhop,
        fun t ht htwithin => Nat.le_of_succ_le (hgoal t ht htwithin)⟩
    obtain ⟨q, hq⟩ := h.found u es.length (Nat.le_refl _) hcount
    obtain ⟨es', -, hlength', hwalk', rfl⟩ := h.held u q hq
    obtain ⟨d, hd⟩ := exists_strongest hg hhop
    exact ⟨_, (h.mem_offersTo hg).mpr
      ⟨u, es', d, Option.some.inj (hlength'.symm.trans hcount), hcount, hwalk', hq, hd, rfl⟩⟩

/-- **One layer further.** -/
theorem next :
    Laid g f start goal (k + 1) (Layer.next g f (hopCounts g f start goal) (k + 1) l) := by
  have hbest := h.getElem?_best_next
  obtain ⟨hnodup, hnodes⟩ := Layer.nodes_next (g := g) (f := f) h.apart fun v hv =>
    h.getElem?_best_of_next hv
  refine ⟨fun v => ?_, hnodup, fun v p hp => ?_, fun v d hd hv => ?_⟩
  · rw [hnodes v]
    exact ⟨fun hv => hv.1, fun hv => ⟨hv, h.exists_offer hg hv⟩⟩
  · by_cases hv : (hopCounts g f start goal)[v]? = some (k + 1)
    · rw [(hbest v).1 hv] at hp
      obtain ⟨u, es, e, rfl, -, hwalk, -, hstrongest, rfl⟩ :=
        (h.mem_offersTo hg).mp (mem_of_preferred? hp)
      have hlength : (es ++ [e]).length = es.length + 1 := by
        rw [length_append, length_singleton]
      exact ⟨es ++ [e], hlength.le, hlength ▸ hv, .step hwalk hstrongest, rfl⟩
    · rw [(hbest v).2 hv] at hp
      obtain ⟨es, hle, hrest⟩ := h.held v p hp
      exact ⟨es, Nat.le_succ_of_le hle, hrest⟩
  · by_cases hnext : (hopCounts g f start goal)[v]? = some (k + 1)
    · obtain ⟨p, hp⟩ := h.exists_offer hg hnext
      rw [(hbest v).1 hnext]
      exact exists_preferred? betterThan hp
    · rw [(hbest v).2 hnext]
      refine h.found v d (Nat.le_of_lt_succ (Nat.lt_of_le_of_ne hd ?_)) hv
      rintro rfl
      exact hnext hv

end

end Laid

theorem Layer.after_succ (distances : Distances) (n : Nat) (l : Layer κ) :
    Layer.after g f distances (n + 1) k l =
      Layer.next g f distances (k + n + 1) (Layer.after g f distances n k l) := by
  induction n generalizing k l with
  | zero => rfl
  | succ n ih =>
    have hnext := ih (k := k + 1) (Layer.next g f distances (k + 1) l)
    rw [Nat.succ_add_eq_add_succ] at hnext
    exact hnext

def layerAt (g : Graph κ) (f : EdgeFilter κ) (start goal : NodeId) (k : Nat) : Layer κ :=
  Layer.after g f (hopCounts g f start goal) k 0 (Layer.first start)

theorem layerAt_succ (g : Graph κ) (f : EdgeFilter κ) (start goal : NodeId) (k : Nat) :
    layerAt g f start goal (k + 1) =
      Layer.next g f (hopCounts g f start goal) (k + 1) (layerAt g f start goal k) := by
  rw [layerAt, Layer.after_succ, Nat.zero_add]
  rfl

/-- **Layer after layer**, each node holds the path of a walk along strongest edges. -/
theorem laid_layerAt [Confidence.Ranked κ] (hg : g.Weighed) (f : EdgeFilter κ)
    (start goal : NodeId) (k : Nat) : Laid g f start goal k (layerAt g f start goal k) := by
  induction k with
  | zero => exact Laid.first hg f start goal
  | succ k ih =>
    rw [layerAt_succ]
    exact ih.next hg

/-- **The path sought is the one that the goal holds in its layer**, if that is not below the
floor. -/
theorem search?_eq (g : Graph κ) (f : EdgeFilter κ) (start goal : NodeId) :
    search? g f start goal = (hopCounts g f start goal)[goal]?.bind fun far =>
      (layerAt g f start goal far).best[goal]?.filter
        fun p => decide (f.minConfidence ≤ p.confidence) :=
  rfl

theorem shortest_eq_elim (hstart : g.hasNode start) (hgoal : g.hasNode goal)
    (hne : start ≠ goal) : shortest g f start goal =
      (search? g f start goal).elim (.error (.noPath start goal)) .ok := by
  rw [shortest, hstart, hgoal, if_neg (by simp), if_neg (by simp), if_neg hne]
  cases search? g f start goal <;> rfl

end

end GraphPath

end AppAtlas
