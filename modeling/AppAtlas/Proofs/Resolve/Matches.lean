import AppAtlas.Proofs.Confidence
import AppAtlas.Proofs.Resolve.Names

/-!
# What a search can find

Whatever a target is, its matches come about in one of three ways: as nodes of the identity asked
for, as nodes of the name looked up, or as the most similar of the nodes looked up.  This file says
so once for each kind of target.  What is found is then known by the ways alone: which nodes can be
among the matches, and how similar they can be.

* `Search.Finds`: the ways in which matches come about.
* `Search.finds_memberAmong` and the lemmas after it: a search among the nodes looked up finds in
  these ways.
* `Search.Finds.within`: matches are among the nodes asked for and looked up.
-/

namespace AppAtlas

open List

variable {κ : Type} [Confidence κ]

/-! ### Scores -/

/-- **The numbers that say how similar something is**: one, the marks of a name that fits while
something else does not, and the share of a whole. -/
inductive Search.Score : κ → Prop where
  | one : Score 1.0
  | otherArity : Score otherArity
  | otherNamespace : Score otherNamespace
  | share {part whole : Nat} (h : part ≤ whole) : Score (Confidence.ratio part whole)

open Search

namespace Route

theorem literalMatches?_le {asked full : List (List Char)} {n : Nat}
    (h : literalMatches? asked full = some n) : n ≤ full.length := by
  induction asked generalizing full n with
  | nil =>
    cases h
    exact Nat.zero_le _
  | cons a as ih =>
    cases full with
    | nil =>
      cases h
      exact Nat.zero_le _
    | cons b bs =>
      rw [literalMatches?] at h
      split at h
      · exact Nat.le_succ_of_le (ih h)
      · split at h
        · obtain ⟨m, hm, rfl⟩ := Option.map_eq_some_iff.mp h
          exact Nat.succ_le_succ (ih hm)
        · cases h

theorem score_similarity? {request route : String} {relative : Bool} {x : κ}
    (h : similarity? request route relative = some x) : Score x := by
  rw [similarity?] at h
  split at h
  · cases h
  · split at h
    · obtain ⟨n, hn, rfl⟩ := Option.map_eq_some_iff.mp h
      refine .share (Nat.le_trans (literalMatches?_le hn) ?_)
      rw [length_drop]
      exact Nat.sub_le _ _
    · cases h

end Route

theorem commonSegments_le (as bs : List (List Char)) : commonSegments as bs ≤ as.length := by
  induction as generalizing bs with
  | nil => exact Nat.zero_le _
  | cons a as ih =>
    cases bs with
    | nil => exact Nat.zero_le _
    | cons b bs =>
      rw [commonSegments]
      split
      · exact Nat.succ_le_succ (ih bs)
      · exact Nat.zero_le _

theorem score_trailingSimilarity (a b : String) : Score (trailingSimilarity a b : κ) := by
  refine .share (Nat.le_trans (commonSegments_le _ _) ?_)
  rw [length_reverse]
  exact Nat.le_trans (Nat.le_max_left _ _) (Nat.le_max_left _ _)

theorem TablePattern.score_similarity? {p : TablePattern} {table : String} {x : κ}
    (h : p.similarity? table = some x) : Score x := by
  rw [similarity?] at h
  split at h
  · next hfits =>
    cases h
    rw [Bool.and_eq_true, decide_eq_true_iff] at hfits
    exact .share (Nat.le_of_lt hfits.2)
  · cases h

theorem Search.score_routeScore? {n : Node} {route : String} {relative : Bool} {x : κ}
    (h : routeScore? n route relative = some x) : Score x := by
  have hscores : ∀ y ∈ n.routes.filterMap (Route.similarity? route · relative), Score (y : κ) := by
    intro y hy
    obtain ⟨r, -, hr⟩ := mem_filterMap.mp hy
    exact Route.score_similarity? hr
  rw [routeScore?] at h
  split at h
  · cases h
  · next y ys hys =>
    cases h
    exact hscores _ (hys ▸ Confidence.foldl_max_mem ys y)

/-! ### The ways to match -/

/-- Matches that are made of nodes with a property: exact ones, those by name, or the most similar
of nodes that have scores. -/
inductive Matches.From (P : Node → Prop) (s : Search κ) : Matches κ → Prop where
  | exact {nodes : List Node} (h : ∀ n ∈ nodes, P n) : From P s ⟨.exact, nodes, 1.0⟩
  | name {nodes : List Node} (h : ∀ n ∈ nodes, P n) : From P s ⟨.name, nodes, 1.0⟩
  | fuzzy {scored : List (Node × κ)} {m : Matches κ} (h : ∀ x ∈ scored, P x.1 ∧ Score x.2)
    (hm : s.fuzzy? scored = some m) : From P s m

/-- All nodes of the matches, if there are any, have a property. -/
def Matches.Within (P : Node → Prop) (found : Option (Matches κ)) : Prop :=
  ∀ m : Matches κ, found = some m → ∀ n ∈ m.nodes, P n

namespace Search

/-- **What is found is made of nodes with a property.** -/
def Finds (P : Node → Prop) (s : Search κ) (found : Option (Matches κ)) : Prop :=
  ∀ m : Matches κ, found = some m → m.From P s

variable {P : Node → Prop} {s : Search κ} {hits : List Node}

theorem finds_none : s.Finds P none := fun _ h => absurd h (by simp)

theorem Finds.orElse {a b : Option (Matches κ)} (ha : s.Finds P a) (hb : s.Finds P b) :
    s.Finds P (a <|> b) := by
  intro m hm
  rw [Option.orElse_eq_orElse, Option.orElse_eq_or, Option.or_eq_some_iff] at hm
  rcases hm with hm | ⟨-, hm⟩
  · exact ha m hm
  · exact hb m hm

theorem finds_bind {α : Type} {o : Option α} {f : α → Option (Matches κ)}
    (h : ∀ a, o = some a → s.Finds P (f a)) : s.Finds P (o.bind f) := by
  intro m hm
  obtain ⟨a, ha, hfa⟩ := Option.bind_eq_some_iff.mp hm
  exact h a ha m hfa

theorem finds_findSome? {α : Type} {as : List α} {f : α → Option (Matches κ)}
    (h : ∀ a ∈ as, s.Finds P (f a)) : s.Finds P (as.findSome? f) := by
  intro m hm
  obtain ⟨a, ha, hfa⟩ := exists_of_findSome?_eq_some hm
  exact h a ha m hfa

theorem finds_exactly? {nodes : List Node} (h : ∀ n ∈ nodes, P n) : s.Finds P (exactly? nodes) := by
  intro m hm
  rw [exactly?] at hm
  split at hm
  · cases hm
  · cases hm
    exact .exact h

theorem mem_of_mem_tidy {nodes : List Node} {n : Node} (h : n ∈ tidy nodes) : n ∈ nodes := by
  rw [tidy, Node.sorted, mem_mergeSort] at h
  exact mem_of_mem_distinctOn h

theorem finds_named? {nodes : List Node} (h : ∀ n ∈ nodes, P n) : s.Finds P (s.named? nodes) := by
  intro m hm
  rw [named?] at hm
  split at hm
  · cases hm
  · cases hm
    exact .name fun n hn => h n (mem_filter.mp (mem_of_mem_tidy hn)).1

theorem finds_fuzzy? {scored : List (Node × κ)} (h : ∀ x ∈ scored, P x.1 ∧ Score x.2) :
    s.Finds P (s.fuzzy? scored) := fun _ hm => .fuzzy h hm

theorem mem_scored_of_fuzzy? {scored : List (Node × κ)} {m : Matches κ}
    (h : s.fuzzy? scored = some m) {n : Node} (hn : n ∈ m.nodes) : ∃ x ∈ scored, x.1 = n := by
  rw [fuzzy?] at h
  dsimp only at h
  split at h
  · cases h
  · cases h
    obtain ⟨x, hx, rfl⟩ := mem_map.mp (mem_of_mem_tidy hn)
    exact ⟨x, (mem_filter.mp (mem_filter.mp hx).1).1, rfl⟩

/-- **Matches are among the nodes that a search can find.** -/
theorem Finds.within {found : Option (Matches κ)} (h : s.Finds P found) :
    Matches.Within P found := by
  intro m hm n hn
  cases h m hm with
  | exact hnodes => exact hnodes n hn
  | name hnodes => exact hnodes n hn
  | fuzzy hscored hfuzzy =>
    obtain ⟨x, hx, rfl⟩ := mem_scored_of_fuzzy? hfuzzy hn
    exact (hscored x hx).1

/-! ### Targets of each kind -/

/-- What has an identity that is asked for has a property. -/
def Probing (P : Node → Prop) (s : Search κ) (t : Target) : Prop :=
  ∀ probe ∈ t.probes, ∀ n : Node, s.view.node? (NodeId.of probe.1 probe.2) = some n → P n

omit [Confidence κ] in
theorem Probing.mem {t : Target} (h : s.Probing P t) {kind : NodeKind} {signature : String}
    (hmem : (kind, signature) ∈ t.probes) {keep : Node → Bool} :
    ∀ n ∈ ((s.view.node? (NodeId.of kind signature)).filter keep).toList, P n := by
  intro n hn
  rw [Option.mem_toList, Option.filter_eq_some_iff] at hn
  exact h _ hmem n hn.1

theorem finds_memberAmong {owner : Option TypeRef} {member : String} {arity : Option Nat}
    {kinds : List NodeKind} (hp : s.Probing P (.member owner member arity kinds))
    (hhits : ∀ n ∈ hits, P n) : s.Finds P (s.memberAmong hits owner member arity kinds) := by
  have hfitting : ∀ keep, ∀ n ∈ hits.filter keep, P n :=
    fun keep n hn => hhits n (mem_filter.mp hn).1
  rw [memberAmong]
  refine .orElse ?_ (.orElse ?_ (.orElse ?_ ?_))
  · refine finds_bind fun t ht => ?_
    subst ht
    refine finds_findSome? fun full hfull => finds_exactly? ?_
    cases arity with
    | none => exact hfitting _
    | some a => exact hp.mem (mem_map.mpr ⟨full, hfull, rfl⟩)
  · refine finds_bind fun t _ => finds_named? fun n hn => ?_
    exact hfitting _ n (mem_filter.mp (mem_filter.mp hn).1).1
  · exact finds_named? fun n hn => hfitting _ n (mem_filter.mp hn).1
  · refine finds_fuzzy? fun x hx => ?_
    obtain ⟨n, hn, rfl⟩ := mem_map.mp hx
    refine ⟨hfitting _ n hn, ?_⟩
    dsimp only
    split
    · exact .one
    · exact .otherArity

theorem finds_typeAmong {t : TypeRef} {kinds : List NodeKind} (hp : s.Probing P (.type t kinds))
    (hhits : ∀ n ∈ hits, P n) : s.Finds P (s.typeAmong hits t) := by
  rw [typeAmong]
  refine .orElse ?_ (.orElse ?_ ?_)
  · refine finds_findSome? fun full hfull => finds_exactly? ?_
    exact hp.mem (mem_map.mpr ⟨full, hfull, rfl⟩)
  · exact finds_named? fun n hn => hhits n (mem_filter.mp (mem_filter.mp hn).1).1
  · refine finds_fuzzy? fun x hx => ?_
    obtain ⟨n, hn, rfl⟩ := mem_map.mp hx
    exact ⟨hhits n (mem_filter.mp hn).1, .one⟩

theorem finds_pageAmong {path : String} (hp : s.Probing P (.resource path))
    (hhits : ∀ n ∈ hits, P n) : s.Finds P (s.pageAmong hits path) := by
  rw [pageAmong]
  refine .orElse ?_ (.orElse ?_ ?_)
  · exact finds_exactly? (hp.mem (mem_singleton_self _))
  · exact finds_named? fun n hn => hhits n (mem_filter.mp hn).1
  · refine finds_fuzzy? fun x hx => ?_
    obtain ⟨n, hn, rfl⟩ := mem_map.mp hx
    exact ⟨hhits n hn, score_trailingSimilarity _ _⟩

theorem finds_statementAmong {id : String} (hp : s.Probing P (.statement id))
    (hhits : ∀ n ∈ hits, P n) : s.Finds P (s.statementAmong hits id) := by
  rw [statementAmong]
  refine .orElse ?_ (.orElse ?_ (.orElse ?_ ?_))
  · exact finds_exactly? (hp.mem (mem_singleton_self _))
  · exact finds_named? fun n hn => hhits n (mem_filter.mp (mem_filter.mp hn).1).1
  · exact finds_named? fun n hn => hhits n (mem_filter.mp hn).1
  · refine finds_fuzzy? fun x hx => ?_
    obtain ⟨n, hn, rfl⟩ := mem_map.mp hx
    refine ⟨hhits n hn, ?_⟩
    dsimp only
    split
    · exact .one
    · exact .otherNamespace

theorem finds_tableMatch {name : String} (hp : s.Probing P (.table name)) :
    s.Finds P (s.tableMatch name) :=
  finds_exactly? (hp.mem (mem_singleton_self _))

theorem finds_columnAmong {table : Option String} {name : String} {candidates : List String}
    (hp : s.Probing P (.column table name candidates)) (hhits : ∀ n ∈ hits, P n) :
    s.Finds P (s.columnAmong hits table name candidates) := by
  rw [columnAmong]
  refine .orElse ?_ (.orElse ?_ ?_)
  · refine finds_findSome? fun t ht => finds_exactly? ?_
    obtain ⟨owner, howner, rfl⟩ := mem_map.mp ht
    exact hp.mem (mem_map.mpr ⟨owner, howner, rfl⟩)
  · exact finds_named? fun n hn => hhits n (mem_filter.mp hn).1
  · exact finds_named? hhits

theorem finds_routeAmong (s : Search κ) (hhits : ∀ n ∈ hits, P n) (route : String)
    (verb : Option String) : s.Finds P (s.routeAmong hits route verb) := by
  rw [routeAmong]
  refine .orElse ?_ ?_
  · exact finds_exactly? fun n hn => hhits n (mem_filter.mp (mem_filter.mp hn).1).1
  · refine finds_named? fun n hn => ?_
    split at hn
    · exact hhits n hn
    · exact hhits n (mem_filter.mp hn).1

theorem finds_similarRoutes? {route : String} {verb : Option String} {relative : Bool}
    (hhits : ∀ n ∈ hits, P n) : s.Finds P (s.similarRoutes? hits route verb relative) := by
  refine finds_fuzzy? fun x hx => ?_
  obtain ⟨n, hn, hscore⟩ := mem_filterMap.mp hx
  obtain ⟨y, hy, rfl⟩ := Option.map_eq_some_iff.mp hscore
  exact ⟨hhits n (mem_filter.mp hn).1, score_routeScore? hy⟩

theorem finds_patternAmong {pattern : TablePattern} (hhits : ∀ n ∈ hits, P n) :
    s.Finds P (s.patternAmong hits pattern) := by
  refine finds_fuzzy? fun x hx => ?_
  obtain ⟨n, hn, hscore⟩ := mem_filterMap.mp hx
  obtain ⟨y, hy, rfl⟩ := Option.map_eq_some_iff.mp hscore
  exact ⟨hhits n hn, TablePattern.score_similarity? hy⟩

end Search

end AppAtlas
