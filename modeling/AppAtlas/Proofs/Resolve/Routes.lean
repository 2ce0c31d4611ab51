import AppAtlas.Proofs.Confidence.Greatest
import AppAtlas.Proofs.Resolve.Lookups
import AppAtlas.Proofs.Route

/-!
# Searching routes by their tails

A request that no route answers is given to the methods whose routes resemble it.  Not all methods
are looked at, only those that stand under the tail of the request or under the tail of all
templates.  That is enough: where segments are compared the last ones meet, so a route that fits a
request has the same tail, unless one of the two ends in a template.

* `Route.tail_of_similarity?`: the tails of a request and of a route that fits it.
* `Search.fuzzy?_congr`: the most similar nodes depend only on the nodes and their scores.
* `indexed_route_search_eq_scan`: looking at some methods finds what looking at all finds.
-/

namespace AppAtlas

open List Std OrderedMap

variable {κ : Type}

namespace Route

/-! ### Stems and tails -/

/-- A stem without segments is that of the root; any other ends in a segment. -/
theorem stemChars_cases (cs : List Char) : stemChars cs = ['/'] ∨
    ∃ front last, stemChars cs = front ++ '/' :: last ∧ '/' ∉ last ∧ last ≠ [] := by
  have hnormal : normalizeChars cs = ofSegments (segments (withoutQuery (Text.trim cs))) := rfl
  rcases eq_nil_or_concat (segments (withoutQuery (Text.trim cs))) with hnil | ⟨ss, s, hss⟩
  · refine .inl ?_
    rw [stemChars, hnormal, hnil]
    rfl
  · refine .inr ?_
    rw [concat_eq_append] at hss
    have hfront := ofSegments_concat ss s
    generalize ss.flatMap ('/' :: ·) = front at hfront
    obtain ⟨hne, hslash⟩ := filled_segments (withoutQuery (Text.trim cs)) s (by rw [hss]; simp)
    rw [stemChars, hnormal, hss, hfront]
    simp only [Text.cutLast_append front hslash]
    split
    · next stem extension hdot =>
      split
      · exact ⟨front, s, rfl, hslash, hne⟩
      · next hstem =>
        -- the stem of a segment is a part of it
        refine ⟨front, stem, rfl, fun h => hslash ?_, by simpa using hstem⟩
        rw [← Text.append_cutLast hdot]
        exact mem_append_left _ h
    · exact ⟨front, s, rfl, hslash, hne⟩

def tailOf (last : List Char) : List Char := if isTemplate last then ['\x7b', '\x7d'] else last

/-- **The tail of a route is that of the last segment of its stem.** -/
theorem stem_spec (route : String) : stemSegments route = [] ∨ ∃ init last,
      stemSegments route = init ++ [last] ∧ (tail route).toList = tailOf last := by
  rcases stemChars_cases route.toList with hroot | ⟨front, last, hstem, hslash, hne⟩
  · refine .inl ?_
    rw [stemSegments, hroot]
    rfl
  · refine .inr ⟨segments front, last, ?_, ?_⟩
    · rw [stemSegments, hstem]
      exact Text.filledSegments_concat front hslash hne
    · rw [tail, Text.toList_onString, tailChars, hstem, Text.afterLast_append front hslash]
      rfl

/-! ### Routes that fit -/

theorem last_of_literalMatches? {as bs : List (List Char)} {a b : List Char} {n : Nat}
    (hlength : as.length = bs.length) (h : literalMatches? (as ++ [a]) (bs ++ [b]) = some n) :
    isTemplate a ∨ isTemplate b ∨ a = b := by
  induction as generalizing bs n with
  | nil =>
    obtain rfl := length_eq_zero_iff.mp hlength.symm
    rw [nil_append, nil_append, literalMatches?] at h
    split at h
    · next htemplate =>
      rw [Bool.or_eq_true] at htemplate
      exact htemplate.imp id .inl
    · split at h
      · next heq => exact .inr (.inr heq)
      · cases h
  | cons c as ih =>
    cases bs with
    | nil => cases hlength
    | cons d bs =>
      have hrest : as.length = bs.length := Nat.succ.inj hlength
      rw [cons_append, cons_append, literalMatches?] at h
      split at h
      · exact ih hrest h
      · split at h
        · obtain ⟨m, hm, -⟩ := Option.map_eq_some_iff.mp h
          exact ih hrest hm
        · cases h

theorem tail_of_template {route : String} {last : List Char}
    (h : (tail route).toList = tailOf last) (htemplate : isTemplate last) :
    tail route = templateTail := by
  rw [tailOf, if_pos htemplate] at h
  exact String.toList_inj.mp h

/-- **The tails of a request and of a route that fits it** are the same, or one of them is that of
templates. -/
theorem tail_of_similarity? [Confidence κ] {request route : String} {relative : Bool} {x : κ}
    (h : similarity? request route relative = some x) :
    tail request = templateTail ∨ tail route = templateTail ∨ tail route = tail request := by
  rw [similarity?] at h
  split at h
  · cases h
  · next hfilled =>
    rw [Bool.or_eq_true, List.isEmpty_iff, List.isEmpty_iff, not_or] at hfilled
    split at h
    · next hlengths =>
      obtain ⟨n, hn, -⟩ := Option.map_eq_some_iff.mp h
      obtain ⟨as, a, hasked, htail⟩ := (stem_spec request).resolve_left hfilled.1
      obtain ⟨bs, b, hfull, htail'⟩ := (stem_spec route).resolve_left hfilled.2
      have hle : as.length ≤ bs.length := by
        simp only [hasked, hfull, length_append, length_singleton, Bool.or_eq_true,
          Bool.and_eq_true, decide_eq_true_iff] at hlengths
        omega
      -- the request is laid against the end of the route
      have hdrop : (bs ++ [b]).drop ((bs ++ [b]).length - (as ++ [a]).length) =
          bs.drop (bs.length - as.length) ++ [b] := by
        rw [length_append, length_append, length_singleton, length_singleton,
          Nat.add_sub_add_right, drop_append_of_le_length (Nat.sub_le _ _)]
      rw [hasked, hfull, hdrop] at hn
      have hlength : as.length = (bs.drop (bs.length - as.length)).length := by
        rw [length_drop]
        omega
      rcases last_of_literalMatches? hlength hn with ha | hb | rfl
      · exact .inl (tail_of_template htail ha)
      · exact .inr (.inl (tail_of_template htail' hb))
      · exact .inr (.inr (String.toList_inj.mp (htail'.trans htail.symm)))
    · cases h

end Route

/-! ### All visible nodes -/

/-- All visible nodes: the concrete ones of the file itself, and those of the graph. -/
def View.scan (v : View κ) : List Node :=
  v.localNodes.values.filter (·.isConcrete)
    ++ v.graph.nodeList.filter fun n => !v.isLocal n.id && v.sees n

theorem Node.isMethod_of_routeTail {n : Node} {tail : String}
    (h : .routeTail tail ∈ n.lookupKeys) : n.kind.isMethod := by
  rw [Node.lookupKeys, if_pos (isConcrete_of_mem_lookupKeys h)] at h
  rcases mem_append.mp h with h | h
  · -- no key that a kind or a signature gives is a tail
    cases hkind : n.kind <;> simp [hkind, NodeKind.signatureKeys] at h
  · split at h
    · assumption
    · cases h

theorem Node.isConcrete_of_isMethod {n : Node} (h : n.kind.isMethod) : n.isConcrete := by
  cases hkind : n.kind <;> simp_all [Node.isConcrete, Node.isStub, NodeKind.isMethod]

theorem Node.routeTail_mem_lookupKeys {n : Node} (h : n.kind.isMethod) {r : String}
    (hr : r ∈ n.routes) : .routeTail (Route.tail r) ∈ n.lookupKeys := by
  rw [Node.lookupKeys, if_pos (isConcrete_of_isMethod h), if_pos h]
  refine mem_append_right _ (mem_flatMap.mpr ⟨r, hr, ?_⟩)
  exact mem_cons_of_mem _ mem_cons_self

theorem Node.kind_mem_lookupKeys {n : Node} (h : n.isConcrete) : .kind n.kind ∈ n.lookupKeys := by
  rw [Node.lookupKeys, if_pos h]
  exact mem_append_left _ mem_cons_self

theorem Node.kind_of_mem_lookupKeys {n : Node} {kind : NodeKind} (h : .kind kind ∈ n.lookupKeys) :
    n.kind = kind := by
  rw [Node.lookupKeys, if_pos (isConcrete_of_mem_lookupKeys h)] at h
  rcases mem_append.mp h with h | h
  · cases hkind : n.kind <;> simpa [hkind, NodeKind.signatureKeys, eq_comm] using h
  · split at h
    · obtain ⟨r, -, hr⟩ := mem_flatMap.mp h
      exact absurd hr (by simp [Route.keys])
    · cases h

namespace FindingSet

variable {f : FindingSet κ} {g : Graph κ} {n : Node}

/-- **The scan has all visible nodes.** -/
theorem mem_scan_iff (hg : g.Sound) : n ∈ (f.view g).scan ↔ (f.view g).node? n.id = some n := by
  rw [View.scan, mem_append, mem_filter, mem_filter, node?_eq_some_iff,
    Bool.and_eq_true, Bool.not_eq_true', Graph.nodeList, and_left_comm]
  refine or_congr (and_congr_left fun _ => ?_) (and_congr_right fun _ => and_congr_left fun _ => ?_)
  · refine mem_values.trans ⟨?_, fun h => ⟨n.id, h⟩⟩
    rintro ⟨id, hid⟩
    rw [id_of_localNodes hid]
    exact hid
  · refine mem_values.trans ⟨?_, fun h => ⟨n.id, h⟩⟩
    rintro ⟨id, hid⟩
    rw [(hg id n hid).1]
    exact hid

end FindingSet

/-! ### The most similar nodes -/

namespace Search

theorem pairwise_tidy (nodes : List Node) :
    (tidy nodes).Pairwise fun a b => compare a.id b.id = .lt := by
  have hle := pairwise_mergeSort_key (·.id) (distinctOn (·.id) nodes)
  have hne : (tidy nodes).Pairwise fun a b => a.id ≠ b.id :=
    (mergeSort_perm _ _).symm.pairwise (pairwise_distinctOn (·.id) nodes) fun h => Ne.symm h
  refine (hle.and hne).imp fun {a b} h => ?_
  have hnot : compare a.id b.id ≠ .eq := fun heq => h.2 (LawfulEqOrd.eq_of_compare heq)
  cases hcompare : compare a.id b.id with
  | lt => rfl
  | eq => exact absurd hcompare hnot
  | gt => exact absurd h.1 (by rw [hcompare]; decide)

theorem tidy_congr {ns ms : List Node} (hone : ∀ a ∈ ns, ∀ b ∈ ns, a.id = b.id → a = b)
    (h : ∀ n, n ∈ ns ↔ n ∈ ms) : tidy ns = tidy ms := by
  have hmem : ∀ {as : List Node}, (∀ a ∈ as, ∀ b ∈ as, a.id = b.id → a = b) →
      ∀ n, n ∈ tidy as ↔ n ∈ as := by
    intro as hone n
    refine ⟨mem_of_mem_tidy, fun hn => ?_⟩
    rw [tidy, Node.sorted, mem_mergeSort]
    exact mem_distinctOn hn fun b hb hid => hone b hb n hn hid
  have hone' : ∀ a ∈ ms, ∀ b ∈ ms, a.id = b.id → a = b := fun a ha b hb =>
    hone a ((h a).mpr ha) b ((h b).mpr hb)
  refine eq_of_pairwise_key (pairwise_tidy ns) (pairwise_tidy ms) fun n => ?_
  rw [hmem hone, hmem hone', h]

variable [Confidence κ] [Confidence.Separated κ]

/-- **The most similar nodes depend only on the nodes and their scores**, not on how these are
listed. -/
theorem fuzzy?_congr {s : Search κ} (hmin : (0.0 : κ) < s.minSimilarity) {xs ys : List (Node × κ)}
    (hone : ∀ x ∈ xs, ∀ y ∈ xs, x.1.id = y.1.id → x.1 = y.1)
    (h : ∀ x, x ∈ xs ↔ x ∈ ys) : s.fuzzy? xs = s.fuzzy? ys := by
  have henough : ∀ x,
      x ∈ xs.filter (fun x => x.1.id != s.exclude && s.minSimilarity ≤ x.2) ↔
        x ∈ ys.filter (fun x => x.1.id != s.exclude && s.minSimilarity ≤ x.2) := by
    intro x
    rw [mem_filter, mem_filter, h]
  have hbest : ((xs.filter fun x => x.1.id != s.exclude && s.minSimilarity ≤ x.2).map
      (·.2)).foldl Confidence.max 0.0 = ((ys.filter fun x =>
        x.1.id != s.exclude && s.minSimilarity ≤ x.2).map (·.2)).foldl Confidence.max 0.0 := by
    refine Confidence.foldl_max_congr (fun c hc => ?_) fun c => ?_
    · obtain ⟨x, hx, rfl⟩ := mem_map.mp hc
      have hx := (mem_filter.mp hx).2
      rw [Bool.and_eq_true, decide_eq_true_iff] at hx
      exact Confidence.Separated.pos_of_le _ _ hmin hx.2
    · simp only [mem_map, henough]
  rw [fuzzy?, fuzzy?]
  dsimp only
  rw [hbest, tidy_congr (fun a ha b hb hid => ?_) fun n => ?_]
  · obtain ⟨x, hx, rfl⟩ := mem_map.mp ha
    obtain ⟨y, hy, rfl⟩ := mem_map.mp hb
    exact hone x (mem_filter.mp (mem_filter.mp hx).1).1 y
      (mem_filter.mp (mem_filter.mp hy).1).1 hid
  · simp only [mem_map, mem_filter, h]

end Search

/-! ### The search and the scan -/

section Scan

variable [Confidence κ]

/-- All visible methods that answer a verb and have a route that a request fits, each with the
greatest similarity of its routes. -/
def View.scoredMethods (v : View κ) (route : String) (verb : Option String) (relative : Bool) :
    List (Node × κ) :=
  (v.scan.filter fun n => n.kind.isMethod && n.acceptsVerb verb).filterMap fun n =>
    (Confidence.greatest? (n.routes.filterMap (Route.similarity? route · relative))).map (n, ·)

theorem Search.routeScore?_eq_greatest? (n : Node) (route : String) (relative : Bool) :
    (routeScore? n route relative : Option κ) =
      Confidence.greatest? (n.routes.filterMap (Route.similarity? route · relative)) := by
  rw [routeScore?]
  cases (n.routes.filterMap (Route.similarity? route · relative) : List κ) <;> rfl

theorem Node.isSome_of_mem_routes {n : Node} {r : String} (h : r ∈ n.routes) :
    (n.attribute? Node.routesKey).isSome := by
  obtain ⟨text, htext, -⟩ := mem_map.mp h
  rw [Node.listed] at htext
  split at htext
  · next hattribute => rw [hattribute]; rfl
  · cases htext

/-- The nodes that are looked at when a request has no match of its own stem. -/
def View.routePool (v : View κ) (route : String) : List Node :=
  v.candidates (if Route.tail route = Route.templateTail then .kind .controllerMethod
    else .routeTail (Route.tail route)) ++ v.candidates (.routeTail Route.templateTail)

/-- A request without a match of its own stem is given to that pool. -/
theorem Search.fst_route_of_none {s : Search κ} {path : String} {verb : Option String}
    {relative : Bool} {keys : LookupKeys}
    (hnone : s.routeAmong (s.view.candidates (.route (Route.stem (Route.normalize path))))
      (Route.normalize path) verb = none) : (s.route path verb relative keys).1 =
      s.similarRoutes? (s.view.routePool (Route.normalize path)) (Route.normalize path) verb
        relative := by
  have hlookup : ∀ key keys,
      s.view.lookup key keys = (s.view.candidates key, keys.insert key) := fun _ _ => rfl
  rw [Search.route]
  simp only [bind, StateT.bind, hlookup, hnone]
  rfl

namespace FindingSet

variable {f : FindingSet κ} {g : Graph κ} {n : Node} {route : String} {relative : Bool}

omit [Confidence κ] in
theorem isMethod_of_mem_routePool (hg : g.Sound) (h : n ∈ (f.view g).routePool route) :
    n.kind.isMethod ∧ n ∈ (f.view g).scan := by
  rw [View.routePool, mem_append, mem_candidates_iff hg, mem_candidates_iff hg] at h
  rcases h with ⟨hkey, hn⟩ | ⟨hkey, hn⟩
  · refine ⟨?_, (mem_scan_iff hg).mpr hn⟩
    split at hkey
    · rw [Node.kind_of_mem_lookupKeys hkey]
      rfl
    · exact Node.isMethod_of_routeTail hkey
  · exact ⟨Node.isMethod_of_routeTail hkey, (mem_scan_iff hg).mpr hn⟩

section

variable (hg : g.Sound)
  (hroutes : ∀ n ∈ (f.view g).scan, (n.attribute? Node.routesKey).isSome → n.kind = .controllerMethod)

include hg hroutes

/-- **No method that fits a request is missed**, if only methods of controllers have routes. -/
theorem mem_routePool_of_score {x : κ} (hn : n ∈ (f.view g).scan)
    (hmethod : n.kind.isMethod) (hx : Search.routeScore? n route relative = some x) :
    n ∈ (f.view g).routePool route := by
  rw [Search.routeScore?_eq_greatest?] at hx
  obtain ⟨r, hr, hfits⟩ := mem_filterMap.mp (Confidence.mem_of_greatest? hx)
  have hkey := Node.routeTail_mem_lookupKeys hmethod hr
  have hseen := (mem_scan_iff hg).mp hn
  rw [View.routePool, mem_append, mem_candidates_iff hg, mem_candidates_iff hg]
  by_cases htemplate : Route.tail route = Route.templateTail
  · -- the request ends in a template, so all methods of controllers are looked at
    rw [if_pos htemplate, ← hroutes n hn (Node.isSome_of_mem_routes hr)]
    exact .inl ⟨Node.kind_mem_lookupKeys (Node.isConcrete_of_isMethod hmethod), hseen⟩
  · rw [if_neg htemplate]
    rcases (Route.tail_of_similarity? hfits).resolve_left htemplate with htail | htail
    · exact .inr ⟨htail ▸ hkey, hseen⟩
    · exact .inl ⟨htail ▸ hkey, hseen⟩

theorem mem_scoredMethods_iff (route : String) (verb : Option String) (relative : Bool)
    (p : Node × κ) :
    p ∈ (((f.view g).routePool route).filter (·.acceptsVerb verb)).filterMap (fun n =>
        (Search.routeScore? n route relative).map (n, ·)) ↔
      p ∈ (f.view g).scoredMethods route verb relative := by
  rw [View.scoredMethods, mem_filterMap, mem_filterMap]
  refine exists_congr fun n => ?_
  rw [← Search.routeScore?_eq_greatest?, mem_filter, mem_filter, Bool.and_eq_true]
  refine and_congr_left fun hscore => ?_
  obtain ⟨x, hx, -⟩ := Option.map_eq_some_iff.mp hscore
  constructor
  · rintro ⟨hpool, hverb⟩
    obtain ⟨hmethod, hn⟩ := isMethod_of_mem_routePool hg hpool
    exact ⟨hn, hmethod, hverb⟩
  · rintro ⟨hn, hmethod, hverb⟩
    exact ⟨mem_routePool_of_score hg hroutes hn hmethod hx, hverb⟩

end

theorem node?_of_mem_scoredMethods (hg : g.Sound) {verb : Option String} {p : Node × κ}
    (hp : p ∈ (f.view g).scoredMethods route verb relative) :
    (f.view g).node? p.1.id = some p.1 := by
  obtain ⟨n, hn, hscore⟩ := mem_filterMap.mp hp
  obtain ⟨x, -, rfl⟩ := Option.map_eq_some_iff.mp hscore
  exact (mem_scan_iff hg).mp (mem_filter.mp hn).1

end FindingSet

/-- **Searching routes through the index finds what a scan of all methods finds.**  Let only methods
of controllers have routes, let similarities have to be above zero, and let a request have no match
of its own stem.  Then its matches are the most similar of all visible methods that answer the verb,
each taken with the best of its routes. -/
theorem indexed_route_search_eq_scan [Confidence.Separated κ] (f : FindingSet κ) {s : Store κ}
    (hs : s.Published) (exclude : NodeId) {minSimilarity : κ} (hmin : (0.0 : κ) < minSimilarity)
    (path : String) (verb : Option String) (relative : Bool) (keys : LookupKeys)
    (hroutes : ∀ n ∈ (f.view s.graph).scan, (n.attribute? Node.routesKey).isSome →
      n.kind = .controllerMethod)
    (hnone : (f.search s.graph exclude minSimilarity).routeAmong
      ((f.view s.graph).candidates (.route (Route.stem (Route.normalize path))))
      (Route.normalize path) verb = none) :
    ((f.search s.graph exclude minSimilarity).route path verb relative keys).1 =
      (f.search s.graph exclude minSimilarity).fuzzy?
        ((f.view s.graph).scoredMethods (Route.normalize path) verb relative) := by
  rw [Search.fst_route_of_none hnone, Search.similarRoutes?]
  have hmem := FindingSet.mem_scoredMethods_iff hs.sound hroutes (Route.normalize path) verb relative
  refine Search.fuzzy?_congr hmin (fun x hx y hy hid => ?_) hmem
  have hx := FindingSet.node?_of_mem_scoredMethods hs.sound ((hmem x).mp hx)
  rw [hid, FindingSet.node?_of_mem_scoredMethods hs.sound ((hmem y).mp hy)] at hx
  exact (Option.some.inj hx).symm

end Scan

def routedMethod (signature routes : String) : Node :=
  { Node.stub .controllerMethod signature signature with
    kind := .controllerMethod
    attributes := ExtTreeMap.ofList [(Node.routesKey, routes)] }

/-- A store with two methods of a shop, of which one answers two routes. -/
def shopCalls : List (Store.Call Float) :=
  [.apply { key := ⟨"1"⟩, path := "Shop.java",
            nodes := [routedMethod "app.Shop.edit/1" "/shop/\x7bid\x7d/edit.do",
              routedMethod "app.Shop.show/1" "/shop, /shop/cart/\x7bpart\x7d.do"] }]

def shopPage : FindingSet Float := { path := "shop/page.jsp", artifact := .page }

theorem cart_route_found_as_by_scan :
    ((shopPage.search (Store.afterCalls shopCalls).graph (NodeId.of .page "shop/page.jsp")
      0.25).route "cart/list.do?page=2" (some "GET") true ∅).1.map (·.nodes.map (·.signature)) =
        some ["app.Shop.show/1"] := by
  rw [indexed_route_search_eq_scan shopPage (Store.published_afterCalls shopCalls) _
    (by decide +kernel) _ _ _ _ (by decide +kernel) (by decide +kernel)]
  decide +kernel

end AppAtlas
