import AppAtlas.Proofs.Query.Path
import AppAtlas.Proofs.Query.Shortest

/-!
# The most confident of the shortest routes

Of the routes with the fewest hops the path found should be the most confident one.  But a path
replaces another one for its confidence only if the two differ by more than a tolerance, and the
tolerance does not depend on how confident they are.  Of paths with little confidence the wrong one
can be kept, however many times more confident the other one is.

A route whose product exceeds that of every other by more than the tolerance is found.  Its
beginnings stand out in the same way: continued by the same rest, which has a confidence of at most
one, they would differ by less.  So each of them is kept at its node.

* `most_confident_route_found_up_to_tolerance`: what is found among the shortest routes.
* `faint_route_missed`: a graph in which a route is missed that is nine times as confident.
-/

namespace AppAtlas

open List OrderedMap GraphPath
open Std (ExtTreeMap)

variable {g : Graph Rat} {f : EdgeFilter Rat} {a b u v : NodeId} {vs ws : List NodeId}
  {es es' : List (Edge Rat)} {e : Edge Rat}

/-! ### Routes -/

/-- **A route** from one node to another: each of its nodes is joined to the next by an edge of a
kind that a filter allows. -/
structure Graph.Route (g : Graph Rat) (f : EdgeFilter Rat) (a : NodeId) (vs : List NodeId)
    (b : NodeId) : Prop where
  head : vs.head? = some a
  last : vs.getLast? = some b
  joined : vs.IsChain fun u v => ∃ e : Edge Rat, g.KindHop f u e v

structure Graph.ShortestRoute (g : Graph Rat) (f : EdgeFilter Rat) (a : NodeId) (vs : List NodeId)
    (b : NodeId) : Prop extends g.Route f a vs b where
  least : ∀ ws : List NodeId, g.Route f a ws b → vs.length ≤ ws.length

/-- The greatest confidence of an edge between two nodes, of the kinds that a filter allows. -/
def Graph.strength (g : Graph Rat) (f : EdgeFilter Rat) (u v : NodeId) : Rat :=
  ((g.edgeList.filter fun e => f.allowsKind e.kind && e.source == u && e.target == v).map
    (·.confidence)).max?.getD 0

/-- **The product of the strongest edges** of a route. -/
def Graph.strengthAlong (g : Graph Rat) (f : EdgeFilter Rat) : List NodeId → Rat
  | u :: v :: vs => g.strength f u v * g.strengthAlong f (v :: vs)
  | _ => 1

theorem Graph.kindHop_iff (hg : g.Weighed) : g.KindHop f u e v ↔
    e ∈ g.edgeList ∧ f.allowsKind e.kind ∧ e.source = u ∧ e.target = v := by
  rw [Graph.mem_edgeList_of_keyed fun id e he => (hg id e he).1, ← Direction.leads_backward]
  exact ⟨fun h => ⟨h.edge, h.admits, h.leads⟩, fun h => ⟨h.1, h.2.1, h.2.2⟩⟩

theorem Graph.strength_eq (hg : g.Weighed) (h : g.Strongest f u e v) :
    g.strength f u v = e.confidence := by
  have hmem : ∀ d, d ∈ g.edgeList.filter (fun e => f.allowsKind e.kind &&
      e.source == u && e.target == v) ↔ g.KindHop f u d v := by
    intro d
    rw [mem_filter, Graph.kindHop_iff hg]
    simp only [Bool.and_eq_true, beq_iff_eq, and_assoc]
  have hmax : ((g.edgeList.filter fun e => f.allowsKind e.kind && e.source == u &&
      e.target == v).map (·.confidence)).max? = some e.confidence := by
    rw [max?_eq_some_iff]
    refine ⟨mem_map.mpr ⟨e, (hmem e).mpr h.hop, rfl⟩, fun c hc => ?_⟩
    obtain ⟨d, hd, rfl⟩ := mem_map.mp hc
    exact not_lt.mp (h.greatest d ((hmem d).mp hd))
  rw [Graph.strength, hmax, Option.getD_some]

theorem Graph.route_of_walk (h : Walk (g.KindHop f) a es b) :
    g.Route f a (a :: es.map (·.target)) b := by
  induction es generalizing a with
  | nil => exact ⟨rfl, congrArg some h.of_nil.symm, isChain_singleton a⟩
  | cons e es ih =>
    obtain ⟨u, hhop, hrest⟩ := h.of_cons
    obtain ⟨hsource, htarget⟩ := Direction.leads_backward.mp hhop.leads
    obtain ⟨-, hlast, hjoined⟩ := ih hrest
    rw [map_cons, htarget]
    refine ⟨rfl, ?_, isChain_cons_cons.mpr ⟨⟨e, hhop⟩, hjoined⟩⟩
    rwa [getLast?_cons_cons]

/-- **Along every route there is a walk along strongest edges.** -/
theorem Graph.Route.exists_walk (hg : g.Weighed) (h : g.Route f a vs b) :
    ∃ es : List (Edge Rat), Walk (g.Strongest f) a es b ∧ vs = a :: es.map (·.target) := by
  induction vs generalizing a with
  | nil => exact absurd h.head (by simp)
  | cons v vs ih =>
    obtain rfl : v = a := Option.some.inj h.head
    cases vs with
    | nil =>
      obtain rfl : v = b := Option.some.inj h.last
      exact ⟨[], .stay, rfl⟩
    | cons u vs =>
      obtain ⟨⟨d, hd⟩, hjoined⟩ := isChain_cons_cons.mp h.joined
      obtain ⟨es, hwalk, hvs⟩ := ih ⟨rfl, by rw [← h.last, getLast?_cons_cons], hjoined⟩
      obtain ⟨e, he⟩ := exists_strongest hg hd
      refine ⟨e :: es, Walk.append (.step .stay he) hwalk, ?_⟩
      rw [hvs, map_cons, he.target_eq]

theorem Graph.strengthAlong_of_walk (hg : g.Weighed) (h : Walk (g.Strongest f) a es b) :
    g.strengthAlong f (a :: es.map (·.target)) = confidenceAlong es := by
  induction es generalizing a with
  | nil => rfl
  | cons e es ih =>
    obtain ⟨u, he, hrest⟩ := h.of_cons
    rw [map_cons, Graph.strengthAlong, he.target_eq, ih hrest, Graph.strength_eq hg he,
      confidenceAlong_cons]

/-- A route has only one walk along strongest edges. -/
theorem Walk.eq_of_map_target (h : Walk (g.Strongest f) a es b) (h' : Walk (g.Strongest f) a es' b)
    (htargets : es.map (·.target) = es'.map (·.target)) : es = es' := by
  induction es generalizing a es' with
  | nil => exact (map_eq_nil_iff.mp htargets.symm).symm
  | cons e es ih =>
    obtain ⟨d, es', rfl, htarget, hrest⟩ := map_eq_cons_iff.mp htargets.symm
    obtain ⟨u, he, hwalk⟩ := h.of_cons
    obtain ⟨w, hd, hwalk'⟩ := h'.of_cons
    obtain rfl : u = w := by rw [← he.target_eq, ← hd.target_eq, htarget]
    rw [he.unique hd, ih hwalk hwalk' hrest.symm]

theorem Graph.shortestRoute_iff (hg : g.Weighed) (h : Walk (g.Strongest f) a es b) :
    g.ShortestRoute f a (a :: es.map (·.target)) b ↔
      IsLeast (g.hopCounts .backward f a b) es.length := by
  have hlength : ∀ es : List (Edge Rat), (a :: es.map (·.target)).length = es.length + 1 := by simp
  constructor
  · rintro ⟨-, hleast⟩
    refine ⟨⟨es, walk_kinds h, rfl⟩, ?_⟩
    rintro n ⟨es', hes', rfl⟩
    have hle := hleast _ (Graph.route_of_walk hes')
    rw [hlength, hlength] at hle
    exact Nat.le_of_succ_le_succ hle
  · intro hleast
    refine ⟨Graph.route_of_walk (walk_kinds h), fun ws hws => ?_⟩
    obtain ⟨es', hes', rfl⟩ := hws.exists_walk hg
    rw [hlength, hlength]
    exact Nat.succ_le_succ (hleast.2 ⟨es', walk_kinds hes', rfl⟩)

/-! ### Walks that stand out -/

/-- **A walk that stands out**: it goes along strongest edges, has the fewest hops, and is more
confident than any other such walk by more than the tolerance. -/
structure Graph.StandsOut (g : Graph Rat) (f : EdgeFilter Rat) (a : NodeId) (es : List (Edge Rat))
    (b : NodeId) : Prop where
  walk : Walk (g.Strongest f) a es b
  least : IsLeast (g.hopCounts .backward f a b) es.length
  clear : ∀ es' : List (Edge Rat), Walk (g.Strongest f) a es' b → es'.length = es.length →
    es' ≠ es → confidenceAlong es' + tolerance < confidenceAlong es

/-- What two numbers differ by after multiplication with a confidence they differed by before. -/
theorem add_lt_of_mul_add_lt {x y c t : Rat} (ht : 0 ≤ t) (hc : 0 < c ∧ c ≤ 1)
    (h : x * c + t < y * c) : x + t < y := by
  by_contra hnot
  have hle : y * c ≤ x * c + t := calc
    y * c ≤ (x + t) * c := mul_le_mul_of_nonneg_right (not_lt.mp hnot) hc.1.le
    _ = x * c + t * c := by ring
    _ ≤ x * c + t := add_le_add le_rfl (mul_le_of_le_one_right ht hc.2)
  exact absurd h (not_lt.mpr hle)

/-- **The beginning of a walk that stands out stands out.** -/
theorem Graph.StandsOut.of_concat (hg : g.Weighed) (h : g.StandsOut f a (es ++ [e]) v) :
    ∃ u, g.StandsOut f a es u ∧ g.Strongest f u e v := by
  obtain ⟨u, hwalk, he⟩ := h.walk.of_concat
  have hleast := h.least
  rw [length_append, length_singleton] at hleast
  refine ⟨u, ⟨hwalk, Graph.isLeast_hopCounts_pred hleast (walk_kinds hwalk) he.hop,
    fun es' hes' hlength hne => ?_⟩, he⟩
  -- another walk to the node before, continued by the same edge
  have hclear := h.clear (es' ++ [e]) (.step hes' he)
    (by rw [length_append, length_append, hlength])
    fun heq => hne (append_cancel_right heq)
  rw [confidenceAlong_concat, confidenceAlong_concat] at hclear
  exact add_lt_of_mul_add_lt tolerance_pos.le
    (Confidence.isUnit_iff.mp (hg e.id e he.hop.edge).2) hclear

namespace GraphPath

theorem betterThan_of_add_lt {p q : GraphPath Rat} (h : p.confidence + tolerance < q.confidence) :
    q.betterThan p ∧ p.betterThan q = false := by
  constructor
  · by_contra hnot
    exact absurd (le_of_not_betterThan (Bool.not_eq_true _ ▸ hnot)) (not_le.mpr h)
  · rw [← Bool.not_eq_true]
    exact fun hbetter => absurd (le_of_betterThan hbetter) (not_le.mpr h)

/-- **A walk that stands out is kept.** -/
theorem getElem?_best_of_standsOut (hg : g.Weighed) (h : g.StandsOut f a es v)
    (hwithin : f.Within es.length)
    (hgoal : ∀ t ∈ g.hopCounts .backward f a b, f.Within t → es.length ≤ t) :
    (layerAt g f a b es.length).best[v]? = some (following a es) := by
  induction es using reverseRecOn generalizing v with
  | nil =>
    obtain rfl := h.walk.of_nil
    exact (Layer.getElem?_best_first v v).trans (if_pos rfl)
  | append_singleton es e ih =>
    obtain ⟨u, hbefore, he⟩ := h.of_concat hg
    have hcount := (getElem?_hopCounts hg).mpr ⟨hwithin, h.least, hgoal⟩
    have hlength : (es ++ [e]).length = es.length + 1 := by
      rw [length_append, length_singleton]
    rw [hlength] at hcount hwithin hgoal ⊢
    have hshorter : f.Within es.length := hwithin.of_le (Nat.le_succ _)
    have hnearer := fun t ht htwithin => Nat.le_of_succ_le (hgoal t ht htwithin)
    have hlaid := laid_layerAt hg f a b es.length
    rw [layerAt_succ, (hlaid.getElem?_best_next v).1 hcount]
    refine preferred?_eq_of_best ((hlaid.mem_offersTo hg).mpr ⟨u, es, e, rfl,
      (getElem?_hopCounts hg).mpr ⟨hshorter, hbefore.least, hnearer⟩, hbefore.walk,
      ih hbefore hshorter hnearer, he, rfl⟩) fun p hp hne => ?_
    -- any other offer is the path of another walk with as many hops
    obtain ⟨w, es', d, hes', -, hwalk', -, hd, rfl⟩ := (hlaid.mem_offersTo hg).mp hp
    have hclear := h.clear (es' ++ [d]) (.step hwalk' hd) (by simp [hes']) fun heq =>
      hne (congrArg (following a) heq)
    refine betterThan_of_add_lt ?_
    rw [following_eq_along, following_eq_along]
    exact hclear

end GraphPath

/-! ### The path found -/

/-- A shortest route more confident than all others by more than the tolerance is that of a walk
that stands out. -/
theorem Graph.standsOut_of_route (hg : g.Weighed) (hes : Walk (g.Strongest f) a es b)
    (hshortest : g.ShortestRoute f a (a :: es.map (·.target)) b)
    (h : ∀ ws, g.ShortestRoute f a ws b → ws ≠ a :: es.map (·.target) →
      g.strengthAlong f ws + tolerance < g.strengthAlong f (a :: es.map (·.target))) :
    g.StandsOut f a es b := by
  have hleast := (Graph.shortestRoute_iff hg hes).mp hshortest
  refine ⟨hes, hleast, fun es' hes' hlength hne => ?_⟩
  have hclear := h (a :: es'.map (·.target))
    ((Graph.shortestRoute_iff hg hes').mpr (hlength ▸ hleast))
    fun heq => hne (hes'.eq_of_map_target hes (cons.inj heq).2)
  rwa [Graph.strengthAlong_of_walk hg hes', Graph.strengthAlong_of_walk hg hes] at hclear

/-- **The path found is the most confident shortest route, up to the tolerance.**  Take a graph
whose edges have confidences, two different nodes of it, a filter with a floor of zero and a
shortest route between the nodes within the bound.  A path is found; it goes along a shortest route
and has its product as confidence.  The product of the given route exceeds it by no more than the
slack.  If the product of the given route exceeds that of every other shortest route by more than
the tolerance, the path goes along the given route.  In particular it does so if the product is at
least twice that of every other shortest route and more than twice the tolerance. -/
theorem most_confident_route_found_up_to_tolerance (hg : g.Weighed) (ha : g.hasNode a = true)
    (hb : g.hasNode b = true) (hab : a ≠ b) (hzero : f.minConfidence = 0)
    (hvs : g.ShortestRoute f a vs b) (hwithin : f.Within (vs.length - 1)) :
    ∃ p : GraphPath Rat, GraphPath.shortest g f a b = .ok p ∧
      g.ShortestRoute f a p.nodes b ∧ p.confidence = g.strengthAlong f p.nodes ∧
      g.strengthAlong f vs ≤ p.confidence + GraphPath.slack g (vs.length - 1) ∧
      ((∀ ws : List NodeId, g.ShortestRoute f a ws b → ws ≠ vs →
        g.strengthAlong f ws + GraphPath.tolerance < g.strengthAlong f vs) → p.nodes = vs) ∧
      ((∀ ws : List NodeId, g.ShortestRoute f a ws b → ws ≠ vs →
        2 * g.strengthAlong f ws ≤ g.strengthAlong f vs) →
          2 * GraphPath.tolerance < g.strengthAlong f vs → p.nodes = vs) := by
  obtain ⟨es, hes, rfl⟩ := hvs.toRoute.exists_walk hg
  have hleast := (Graph.shortestRoute_iff hg hes).mp hvs
  have hlength : (a :: es.map (·.target)).length - 1 = es.length := by simp
  rw [hlength] at hwithin ⊢
  have hcount := (GraphPath.getElem?_hopCounts_goal hg).mpr ⟨hwithin, hleast⟩
  have hgoal : ∀ t ∈ g.hopCounts .backward f a b, f.Within t → es.length ≤ t :=
    fun t ht _ => hleast.2 ht
  obtain ⟨p, hbest, hnear⟩ := GraphPath.near_layerAt hg (Nat.le_refl _) hwithin
    ⟨GraphPath.walk_kinds hes, fun es' hes' => hleast.2 ⟨es', hes', rfl⟩⟩ hgoal
  obtain ⟨es', -, hcount', hes', rfl⟩ := (GraphPath.laid_layerAt hg f a b es.length).held b p hbest
  have hleast' := ((GraphPath.getElem?_hopCounts_goal hg).mp hcount').2
  have hfloor : f.minConfidence ≤ (GraphPath.following a es').confidence := by
    rw [hzero, GraphPath.following_eq_along]
    exact (hg.units (GraphPath.walk_kinds hes')).isUnit.1.le
  have hfound : GraphPath.shortest g f a b = .ok (GraphPath.following a es') := by
    rw [GraphPath.shortest_eq_elim ha hb hab, GraphPath.search?_eq, hcount, Option.bind_some, hbest,
      Option.filter_some, if_pos (decide_eq_true hfloor), Option.elim_some]
  have hclear : (∀ ws : List NodeId, g.ShortestRoute f a ws b → ws ≠ a :: es.map (·.target) →
      g.strengthAlong f ws + GraphPath.tolerance < g.strengthAlong f (a :: es.map (·.target))) →
      (GraphPath.following a es').nodes = a :: es.map (·.target) := by
    intro h
    have hkept := GraphPath.getElem?_best_of_standsOut hg (Graph.standsOut_of_route hg hes hvs h)
      hwithin hgoal
    rw [Option.some.inj (hbest.symm.trans hkept), GraphPath.nodes_following]
  refine ⟨_, hfound, ?_, ?_, ?_, hclear, fun htwice htolerance => hclear fun ws hws hne => ?_⟩
  · rw [GraphPath.nodes_following]
    exact (Graph.shortestRoute_iff hg hes').mpr hleast'
  · rw [GraphPath.nodes_following, Graph.strengthAlong_of_walk hg hes',
      GraphPath.following_eq_along]
    rfl
  · rwa [Graph.strengthAlong_of_walk hg hes]
  · have hle := htwice ws hws hne
    linarith

/-! ### Two routes -/

/-- **A diamond**: edges lead from a node to two others only, and from each of them to a fourth. -/
structure Graph.Diamond (g : Graph Rat) (a b c d : NodeId) : Prop where
  apart : a ≠ c ∧ b ≠ c ∧ d ≠ c
  outgoing : ∀ e ∈ g.edgeList, e.source = a → e.target = b ∨ e.target = d
  first : ∃ e ∈ g.edgeList, e.source = a ∧ e.target = b
  second : ∃ e ∈ g.edgeList, e.source = b ∧ e.target = c

theorem Graph.Diamond.shortestRoutes (hg : g.Weighed) {c d : NodeId} (h : g.Diamond a b c d) :
    g.ShortestRoute .all a [a, b, c] c ∧ ∀ ws,
      g.ShortestRoute .all a ws c → ws ≠ [a, b, c] → ws = [a, d, c] := by
  have hjoined : ∀ u v, (∃ e ∈ g.edgeList, e.source = u ∧ e.target = v) →
      ∃ e, g.KindHop .all u e v :=
    fun u v ⟨e, he, hends⟩ => ⟨e, (Graph.kindHop_iff hg).mpr ⟨he, rfl, hends⟩⟩
  have hnext : ∀ v, (∃ e, g.KindHop .all a e v) → v = b ∨ v = d := by
    rintro v ⟨e, he⟩
    obtain ⟨hmem, -, hsource, rfl⟩ := (Graph.kindHop_iff hg).mp he
    exact h.outgoing e hmem hsource
  have hroutes : ∀ ws, g.Route .all a ws c → ws.length ≤ 3 →
      ws = [a, b, c] ∨ ws = [a, d, c] := by
    rintro ws ⟨hhead, hlast, hchain⟩ hlength
    rcases ws with _ | ⟨u, _ | ⟨v, _ | ⟨w, _ | ⟨x, ws⟩⟩⟩⟩
    · exact absurd hhead (by simp)
    · exact absurd ((Option.some.inj hhead).symm.trans (Option.some.inj hlast)) h.apart.1
    · obtain rfl : u = a := Option.some.inj hhead
      obtain rfl : v = c := Option.some.inj hlast
      rcases hnext v (isChain_pair.mp hchain) with hv | hv
      · exact absurd hv.symm h.apart.2.1
      · exact absurd hv.symm h.apart.2.2
    · obtain rfl : u = a := Option.some.inj hhead
      obtain rfl : w = c := Option.some.inj hlast
      rcases hnext v (isChain_cons_cons.mp hchain).1 with rfl | rfl
      · exact Or.inl rfl
      · exact Or.inr rfl
    · exact absurd hlength (by simp)
  have hroute : g.Route .all a [a, b, c] c := ⟨rfl, rfl, isChain_cons_cons.mpr
    ⟨hjoined a b h.first, isChain_pair.mpr (hjoined b c h.second)⟩⟩
  refine ⟨⟨hroute, fun ws hws => ?_⟩, fun ws hws hother => ?_⟩
  · by_contra hshort
    have hshort : ws.length < 3 := not_le.mp hshort
    rcases hroutes ws hws hshort.le with rfl | rfl <;> exact absurd hshort (by simp)
  · exact (hroutes ws hws.toRoute (hws.least _ hroute)).resolve_left hother

/-- A method calls two others, and each of them calls a fourth. -/
def diamondFile (ab bc ad dc : Rat) : Contribution Rat :=
  methodFile ["A.a/0", "A.b/0", "A.c/0", "A.d/0"]
    [callEdge "A.a/0" "A.b/0" ab, callEdge "A.b/0" "A.c/0" bc, callEdge "A.a/0" "A.d/0" ad,
      callEdge "A.d/0" "A.c/0" dc]

/-- Of two routes with products of 9/20 and 1/5, the path found goes along the first. -/
theorem confident_route_found :
    let g := (Store.afterCalls [.apply (diamondFile (1 / 2) (9 / 10) (2 / 5) (1 / 2))]).graph
    let a := NodeId.of .serviceMethod "A.a/0"
    let b := NodeId.of .serviceMethod "A.b/0"
    let c := NodeId.of .serviceMethod "A.c/0"
    g.ShortestRoute .all a [a, b, c] c ∧ g.strengthAlong .all [a, b, c] = 9 / 20 ∧
      ∃ p : GraphPath Rat, GraphPath.shortest g .all a c = .ok p ∧ p.nodes = [a, b, c] := by
  intro g a b c
  let d := NodeId.of .serviceMethod "A.d/0"
  have hg : g.Weighed := (Store.published_afterCalls [.apply _]).weighed
  have hnodes : g.hasNode a = true ∧ g.hasNode c = true := by decide +kernel
  have hdiamond : g.Diamond a b c d :=
    ⟨by decide +kernel, by decide +kernel, by decide +kernel, by decide +kernel⟩
  have hproducts : g.strengthAlong .all [a, b, c] = 9 / 20 ∧
      g.strengthAlong .all [a, d, c] = 1 / 5 ∧ 2 * GraphPath.tolerance < (9 / 20 : Rat) := by
    decide +kernel
  obtain ⟨hshortest, hother⟩ := hdiamond.shortestRoutes hg
  obtain ⟨p, hp, -, -, -, -, htwice⟩ := most_confident_route_found_up_to_tolerance hg hnodes.1
    hnodes.2 hdiamond.apart.1 (by decide +kernel) hshortest fun m hm =>
      absurd hm (by simp [EdgeFilter.all])
  refine ⟨hshortest, hproducts.1, p, hp, htwice (fun ws hws hne => ?_) ?_⟩
  · rw [hother ws hws hne, hproducts.1, hproducts.2.1]
    norm_num
  · rw [hproducts.1]
    exact hproducts.2.2

/-- Of two routes with products of nine tenths and one tenth of the tolerance, the path found goes
along the second, although the first is nine times as confident. -/
theorem faint_route_missed :
    let g := (Store.afterCalls [.apply (diamondFile 1e-6 9e-7 1e-6 1e-7)]).graph
    let a := NodeId.of .serviceMethod "A.a/0"
    let b := NodeId.of .serviceMethod "A.b/0"
    let c := NodeId.of .serviceMethod "A.c/0"
    let d := NodeId.of .serviceMethod "A.d/0"
    g.ShortestRoute .all a [a, b, c] c ∧
      (∀ ws : List NodeId, g.ShortestRoute .all a ws c → ws ≠ [a, b, c] →
        9 * g.strengthAlong .all ws ≤ g.strengthAlong .all [a, b, c]) ∧
      (GraphPath.shortest g .all a c).toOption.map (·.nodes) = some [a, d, c] := by
  intro g a b c d
  have hg : g.Weighed := (Store.published_afterCalls [.apply _]).weighed
  have hdiamond : g.Diamond a b c d :=
    ⟨by decide +kernel, by decide +kernel, by decide +kernel, by decide +kernel⟩
  obtain ⟨hshortest, hother⟩ := hdiamond.shortestRoutes hg
  refine ⟨hshortest, fun ws hws hne => ?_, by decide +kernel⟩
  rw [hother ws hws hne]
  decide +kernel

end AppAtlas
