import AppAtlas.Proofs.Resolve.Matches
import AppAtlas.Proofs.Resolve.Visible

/-!
# What a resolution depends on

Resolving a file notes the keys it looks up.  This file shows that nothing else of the graph
matters: if two graphs have the same visible nodes under each of the keys noted against the one,
resolving against the other does exactly the same.

* `Search.tracks_find`, `ResolverOptions.tracks_gather`: a search and the resolution of all
  references track the keys they note.
* `ResolverOptions.resolve_eq_of_agree`: so a contribution is determined by what is visible under
  the keys it notes.
-/

namespace AppAtlas

open List Std OrderedMap

/-! ### Computations that note keys -/

namespace Consulting

variable {α β : Type}

def Grows (x : Consulting α) : Prop :=
  ∀ (s : LookupKeys) (k : LookupKey), k ∈ s → k ∈ (x s).2

theorem grows_pure (a : α) : Grows (pure a) := fun _ _ hk => hk

theorem grows_bind {x : Consulting α} {f : α → Consulting β} (hx : Grows x)
    (hf : ∀ a, Grows (f a)) : Grows (x >>= f) := fun s k hk =>
  hf (x s).1 (x s).2 k (hx s k hk)

theorem grows_consult (key : LookupKey) : Grows (consult key) := fun _ _ hk =>
  ExtTreeSet.mem_insert.mpr (.inr hk)

/-- **Two computations track keys** if they do the same, with a result that has a property, whenever
the keys noted by the first are ones that agree. -/
def Tracks (agree : LookupKey → Prop) (result : α → Prop) (x y : Consulting α) : Prop :=
  ∀ s : LookupKeys, (∀ k ∈ (x s).2, agree k) → y s = x s ∧ result (x s).1

variable {agree : LookupKey → Prop} {result : α → Prop} {result' : β → Prop}

theorem tracks_pure {a : α} (h : result a) : Tracks agree result (pure a) (pure a) :=
  fun _ _ => ⟨rfl, h⟩

theorem tracks_bind {x y : Consulting α} {f f' : α → Consulting β} (hx : Tracks agree result x y)
    (hgrows : ∀ a, Grows (f a)) (hf : ∀ a, result a → Tracks agree result' (f a) (f' a)) :
    Tracks agree result' (x >>= f) (y >>= f') := by
  intro s hs
  -- the keys noted first are among those noted in the end
  obtain ⟨hsame, hresult⟩ := hx s fun k hk => hs k (hgrows (x s).1 (x s).2 k hk)
  have hnext := hf (x s).1 hresult (x s).2 hs
  show f' (y s).1 (y s).2 = f (x s).1 (x s).2 ∧ _
  rw [hsame]
  exact hnext

theorem tracks_consult (key : LookupKey) :
    Tracks agree (fun _ => agree key) (consult key) (consult key) :=
  fun _ hs => ⟨rfl, hs key ExtTreeSet.mem_insert_self⟩

end Consulting

open Consulting Matches

variable {κ : Type} [Confidence κ]

/-! ### Searching in two graphs -/

variable {f : FindingSet κ} {g g' : Graph κ} {tieBreak : TieBreak}

def FindingSet.search (f : FindingSet κ) (g : Graph κ) (exclude : NodeId) (minSimilarity : κ) :
    Search κ :=
  { view := f.view g, exclude := exclude, minSimilarity := minSimilarity }

/-- The identities a target is searched for have the same nodes in two graphs, of the same
versions. -/
structure FindingSet.ProbesAgree (f : FindingSet κ) (tieBreak : TieBreak) (g g' : Graph κ)
    (t : Target) : Prop where
  nodes : ∀ probe ∈ t.probes,
    (f.view g').node? (NodeId.of probe.1 probe.2) = (f.view g).node? (NodeId.of probe.1 probe.2)
  versions : ∀ probe ∈ t.probes, ∀ n : Node,
    (f.view g).node? (NodeId.of probe.1 probe.2) = some n → f.SameVersion tieBreak g g' n

omit [Confidence κ] in
theorem FindingSet.AgreeUnder.probesAgree {t : Target}
    (h : f.AgreeUnder tieBreak g g' t.probeKey) (hg : g.Sound) (hg' : g'.Sound) (ht : t.Covered)
    (hapart : ∀ probe ∈ t.probes, g.ApartFrom probe ∧ g'.ApartFrom probe) :
    f.ProbesAgree tieBreak g g' t where
  nodes probe hp := h.node?_eq hg hg' (hapart probe hp).1 (hapart probe hp).2 (ht probe hp)
  versions probe hp _ hn := h.sameVersion_of_node? hg (hapart probe hp).1 (ht probe hp) hn

theorem findSome?_congr {α β : Type} {as : List α} {f f' : α → Option β}
    (h : ∀ a ∈ as, f a = f' a) : as.findSome? f = as.findSome? f' := by
  induction as with
  | nil => rfl
  | cons a as ih =>
    rw [findSome?_cons, findSome?_cons, h a mem_cons_self,
      ih fun b hb => h b (mem_cons_of_mem a hb)]

namespace Search

variable {exclude : NodeId} {minSimilarity : κ} {hits : List Node}

omit [Confidence κ] in
theorem probing {t : Target} (hp : f.ProbesAgree tieBreak g g' t) :
    (f.search g exclude minSimilarity).Probing (f.SameVersion tieBreak g g') t := hp.versions

theorem exactMembers?_eq {owner : TypeRef} {member : String} {arity : Option Nat}
    {kinds : List NodeKind}
    (hp : f.ProbesAgree tieBreak g g' (.member (some owner) member arity kinds)) :
    (f.search g' exclude minSimilarity).exactMembers? hits owner member arity =
      (f.search g exclude minSimilarity).exactMembers? hits owner member arity := by
  rw [exactMembers?, exactMembers?]
  cases arity with
  | none => rfl
  | some n =>
    refine findSome?_congr fun full hfull => ?_
    have hmem : (NodeKind.serviceMethod, methodSignature full member n) ∈
        (Target.member (some owner) member (some n) kinds).probes :=
      mem_map.mpr ⟨full, hfull, rfl⟩
    simp only [FindingSet.search, hp.nodes _ hmem]

theorem memberAmong_eq {owner : Option TypeRef} {member : String} {arity : Option Nat}
    {kinds : List NodeKind} (hp : f.ProbesAgree tieBreak g g' (.member owner member arity kinds)) :
    (f.search g' exclude minSimilarity).memberAmong hits owner member arity kinds =
      (f.search g exclude minSimilarity).memberAmong hits owner member arity kinds := by
  rw [memberAmong, memberAmong]
  cases owner with
  | none => rfl
  | some owner =>
    simp only [Option.bind_some, exactMembers?_eq hp]
    rfl

theorem typeAmong_eq {t : TypeRef} {kinds : List NodeKind}
    (hp : f.ProbesAgree tieBreak g g' (.type t kinds)) :
    (f.search g' exclude minSimilarity).typeAmong hits t =
      (f.search g exclude minSimilarity).typeAmong hits t := by
  have hexact : t.fullNames.findSome? (fun full => (exactly?
        (((f.view g').node? (NodeId.of .service full)).filter (·.kind.isType)).toList :
          Option (Matches κ))) =
      t.fullNames.findSome? fun full => exactly?
        (((f.view g).node? (NodeId.of .service full)).filter (·.kind.isType)).toList := by
    refine findSome?_congr fun full hfull => ?_
    rw [hp.nodes (.service, full) (mem_map.mpr ⟨full, hfull, rfl⟩)]
  simp only [typeAmong, FindingSet.search, hexact]
  rfl

theorem pageAmong_eq {path : String} (hp : f.ProbesAgree tieBreak g g' (.resource path)) :
    (f.search g' exclude minSimilarity).pageAmong hits path =
      (f.search g exclude minSimilarity).pageAmong hits path := by
  have hnode := hp.nodes (.page, path) (mem_singleton_self _)
  simp only [pageAmong, FindingSet.search, hnode]
  rfl

theorem statementAmong_eq {id : String} (hp : f.ProbesAgree tieBreak g g' (.statement id)) :
    (f.search g' exclude minSimilarity).statementAmong hits id =
      (f.search g exclude minSimilarity).statementAmong hits id := by
  have hnode := hp.nodes (.statement, id) (mem_singleton_self _)
  simp only [statementAmong, FindingSet.search, hnode]
  rfl

theorem tableMatch_eq {name : String} (hp : f.ProbesAgree tieBreak g g' (.table name)) :
    (f.search g' exclude minSimilarity).tableMatch name =
      (f.search g exclude minSimilarity).tableMatch name := by
  have hnode := hp.nodes (.table, tableName name) (mem_singleton_self _)
  simp only [tableMatch, FindingSet.search, hnode]

theorem columnAmong_eq {table : Option String} {name : String} {candidates : List String}
    (hp : f.ProbesAgree tieBreak g g' (.column table name candidates)) :
    (f.search g' exclude minSimilarity).columnAmong hits table name candidates =
      (f.search g exclude minSimilarity).columnAmong hits table name candidates := by
  have hexact : ((table.toList ++ candidates).map tableName).findSome? (fun t => (exactly?
        (((f.view g').node? (NodeId.of .column (t ++ "." ++ Text.lowerString name))).filter
          (·.kind == .column)).toList : Option (Matches κ))) =
      ((table.toList ++ candidates).map tableName).findSome? fun t => exactly?
        (((f.view g).node? (NodeId.of .column (t ++ "." ++ Text.lowerString name))).filter
          (·.kind == .column)).toList := by
    refine findSome?_congr fun t ht => ?_
    obtain ⟨owner, howner, rfl⟩ := mem_map.mp ht
    rw [hp.nodes (.column, tableName owner ++ "." ++ Text.lowerString name)
      (mem_map.mpr ⟨owner, howner, rfl⟩)]
  simp only [columnAmong, FindingSet.search, hexact]
  rfl

/-! ### The search -/

omit [Confidence κ] in
theorem grows_lookup (v : View κ) (key : LookupKey) : Grows (v.lookup key) :=
  grows_bind (grows_consult key) fun _ => grows_pure _

theorem grows_route (s : Search κ) (path : String) (verb : Option String) (relative : Bool) :
    Grows (s.route path verb relative) := by
  rw [route]
  refine grows_bind (grows_lookup _ _) fun hits => ?_
  split
  · exact grows_pure _
  · exact grows_bind (grows_lookup _ _) fun _ => grows_bind (grows_lookup _ _) fun _ => grows_pure _

theorem grows_find (s : Search κ) (target : Target) (relative : Bool) :
    Grows (s.find target relative) := by
  cases target with
  | member owner name arity kinds => exact grows_bind (grows_lookup _ _) fun _ => grows_pure _
  | type t kinds => exact grows_bind (grows_lookup _ _) fun _ => grows_pure _
  | route path verb => exact grows_route s path verb relative
  | resource path => exact grows_bind (grows_lookup _ _) fun _ => grows_pure _
  | statement id => exact grows_bind (grows_lookup _ _) fun _ => grows_pure _
  | table name => exact grows_bind (grows_consult _) fun _ => grows_pure _
  | tablePattern text =>
    rw [find]
    split
    · exact grows_bind (grows_lookup _ _) fun _ => grows_pure _
    · exact grows_pure _
  | column table name candidates => exact grows_bind (grows_lookup _ _) fun _ => grows_pure _

section Find

variable (hg : g.Sound) (hg' : g'.Sound)

include hg hg'

omit [Confidence κ] in
theorem tracks_lookup (f : FindingSet κ) (tieBreak : TieBreak) (key : LookupKey) :
    Tracks (f.AgreeUnder tieBreak g g')
      (fun hits => f.AgreeUnder tieBreak g g' key ∧ ∀ n ∈ hits, f.SameVersion tieBreak g g' n)
      ((f.view g).lookup key) ((f.view g').lookup key) := by
  refine tracks_bind (tracks_consult key) (fun _ => grows_pure _) fun _ hkey => ?_
  rw [hkey.candidates_eq hg hg']
  exact tracks_pure ⟨hkey, fun n hn => hkey.sameVersion_of_candidate hn⟩

theorem tracks_route (f : FindingSet κ) (tieBreak : TieBreak) (exclude : NodeId)
    (minSimilarity : κ) (path : String) (verb : Option String) (relative : Bool) :
    Tracks (f.AgreeUnder tieBreak g g') (Within (f.SameVersion tieBreak g g'))
      ((f.search g exclude minSimilarity).route path verb relative)
      ((f.search g' exclude minSimilarity).route path verb relative) := by
  rw [route, route]
  refine tracks_bind (tracks_lookup hg hg' f tieBreak _) (fun hits => ?_) fun hits hhits => ?_
  · split
    · exact grows_pure _
    · exact grows_bind (grows_lookup _ _) fun _ =>
        grows_bind (grows_lookup _ _) fun _ => grows_pure _
  · have hwithin := (finds_routeAmong (f.search g exclude minSimilarity) hhits.2
      (Route.normalize path) verb).within
    -- which of the hits is taken does not depend on the graph
    have hsame : (f.search g' exclude minSimilarity).routeAmong hits (Route.normalize path) verb =
        (f.search g exclude minSimilarity).routeAmong hits (Route.normalize path) verb := rfl
    rw [hsame]
    split
    · next m hm =>
      rw [hm] at hwithin
      exact tracks_pure hwithin
    · refine tracks_bind (tracks_lookup hg hg' f tieBreak _)
        (fun _ => grows_bind (grows_lookup _ _) fun _ => grows_pure _) fun alike halike => ?_
      refine tracks_bind (tracks_lookup hg hg' f tieBreak _) (fun _ => grows_pure _)
        fun templates htemplates => ?_
      refine tracks_pure (finds_similarRoutes? fun n hn => ?_).within
      rcases mem_append.mp hn with hn | hn
      · exact halike.2 n hn
      · exact htemplates.2 n hn

/-- **A search tracks the keys it notes**, if the identities it asks for have the same nodes
whenever its first key agrees. -/
theorem tracks_find {f : FindingSet κ} {tieBreak : TieBreak} {t : Target}
    (hprobes : f.AgreeUnder tieBreak g g' t.probeKey → f.ProbesAgree tieBreak g g' t)
    (exclude : NodeId) (minSimilarity : κ) (relative : Bool) :
    Tracks (f.AgreeUnder tieBreak g g') (Within (f.SameVersion tieBreak g g'))
      ((f.search g exclude minSimilarity).find t relative)
      ((f.search g' exclude minSimilarity).find t relative) := by
  have hlookup := fun key => tracks_lookup hg hg' f tieBreak key
  cases t with
  | member owner name arity kinds =>
    refine tracks_bind (hlookup _) (fun _ => grows_pure _) fun hits hhits => ?_
    have hp := hprobes hhits.1
    rw [memberAmong_eq hp]
    exact tracks_pure (finds_memberAmong (probing hp) hhits.2).within
  | type t kinds =>
    refine tracks_bind (hlookup _) (fun _ => grows_pure _) fun hits hhits => ?_
    have hp := hprobes hhits.1
    rw [typeAmong_eq hp]
    exact tracks_pure (finds_typeAmong (probing hp) hhits.2).within
  | route path verb => exact tracks_route hg hg' f tieBreak exclude minSimilarity path verb relative
  | resource path =>
    refine tracks_bind (hlookup _) (fun _ => grows_pure _) fun hits hhits => ?_
    have hp := hprobes hhits.1
    rw [pageAmong_eq hp]
    exact tracks_pure (finds_pageAmong (probing hp) hhits.2).within
  | statement id =>
    refine tracks_bind (hlookup _) (fun _ => grows_pure _) fun hits hhits => ?_
    have hp := hprobes hhits.1
    rw [statementAmong_eq hp]
    exact tracks_pure (finds_statementAmong (probing hp) hhits.2).within
  | table name =>
    refine tracks_bind (tracks_consult _) (fun _ => grows_pure _) fun _ hkey => ?_
    have hp := hprobes hkey
    rw [tableMatch_eq hp]
    exact tracks_pure (finds_tableMatch (probing hp)).within
  | tablePattern text =>
    rw [find, find]
    split
    · refine tracks_bind (hlookup _) (fun _ => grows_pure _) fun hits hhits => ?_
      exact tracks_pure (finds_patternAmong hhits.2).within
    · exact tracks_pure (finds_none (s := f.search g exclude minSimilarity)).within
  | column table name candidates =>
    refine tracks_bind (hlookup _) (fun _ => grows_pure _) fun hits hhits => ?_
    have hp := hprobes hhits.1
    rw [columnAmong_eq hp]
    exact tracks_pure (finds_columnAmong (probing hp) hhits.2).within

end Find

end Search

/-! ### The resolution -/

namespace ResolverOptions

variable {o : ResolverOptions κ}

omit [Confidence κ] in
theorem prefers_eq {a b : Node} (ha : f.SameVersion o.tieBreak g g' a)
    (hb : f.SameVersion o.tieBreak g g' b) :
    o.prefers (f.view g') a b = o.prefers (f.view g) a b := by
  rw [prefers, prefers]
  cases ht : o.tieBreak with
  | lexical => rfl
  | recency => rw [ha ht, hb ht]

omit [Confidence κ] in
theorem pick?_eq {nodes : List Node} (h : ∀ n ∈ nodes, f.SameVersion o.tieBreak g g' n) :
    o.pick? (f.view g') nodes = o.pick? (f.view g) nodes := by
  cases nodes with
  | nil => rfl
  | cons n ns =>
    refine congrArg some ?_
    induction ns generalizing n with
    | nil => rfl
    | cons m ns ih =>
      have hn := h n mem_cons_self
      have hm := h m (mem_cons_of_mem n mem_cons_self)
      rw [foldl_cons, foldl_cons, prefers_eq hn hm]
      refine ih _ fun x hx => ?_
      rcases mem_cons.mp hx with rfl | hx
      · split
        · exact hn
        · exact hm
      · exact h x (mem_cons_of_mem n (mem_cons_of_mem m hx))

theorem bindMatches_eq {m : Matches κ} (h : ∀ n ∈ m.nodes, f.SameVersion o.tieBreak g g' n)
    (r : Reference κ) (scope : Option String) :
    o.bindMatches (f.view g') r scope m = o.bindMatches (f.view g) r scope m := by
  rw [bindMatches, bindMatches]
  -- the nodes among which one is picked are some of the matches
  have htied : ∀ n ∈ (if (scope.elim [] fun s => m.nodes.filter fun n => n.scope? == some s).isEmpty
      then m.nodes else scope.elim [] fun s => m.nodes.filter fun n => n.scope? == some s),
      f.SameVersion o.tieBreak g g' n := by
    intro n hn
    split at hn
    · exact h n hn
    · cases scope with
      | none => cases hn
      | some s => exact h n (mem_filter.mp hn).1
  rw [pick?_eq htied]
  rfl

theorem grows_bindReference (o : ResolverOptions κ) (v : View κ) (scope : Option String)
    (r : Reference κ) : Grows (o.bind v scope r) := by
  rw [bind]
  refine grows_bind (Search.grows_find _ _ _) fun found => ?_
  cases found <;> exact grows_pure _

theorem grows_gather (o : ResolverOptions κ) (v : View κ) (scope : Option String)
    (rs : List (Reference κ)) (start : Gathered κ) :
    Grows (rs.foldlM (fun g r => return g.add v r (← o.bind v scope r)) start) := by
  induction rs generalizing start with
  | nil => exact grows_pure _
  | cons r rs ih =>
    rw [foldlM_cons]
    exact grows_bind (grows_bind (grows_bindReference o v scope r) fun _ => grows_pure _)
      fun _ => ih _

section Resolve

variable (hg : g.Sound) (hg' : g'.Sound)

include hg hg'

theorem tracks_bindReference {o : ResolverOptions κ} {f : FindingSet κ} {r : Reference κ}
    (hprobes : f.AgreeUnder o.tieBreak g g' r.target.probeKey →
      f.ProbesAgree o.tieBreak g g' r.target) (scope : Option String) :
    Tracks (f.AgreeUnder o.tieBreak g g') (fun _ => True)
      (o.bind (f.view g) scope r) (o.bind (f.view g') scope r) := by
  rw [bind, bind]
  refine tracks_bind (Search.tracks_find hg hg' hprobes _ _ _) (fun found => ?_)
    fun found hfound => ?_
  · cases found <;> exact grows_pure _
  · cases found with
    | none => exact tracks_pure trivial
    | some m =>
      dsimp only
      rw [bindMatches_eq (hfound m rfl)]
      exact tracks_pure trivial

/-- **The resolution of all references tracks the keys it notes.** -/
theorem tracks_gather {o : ResolverOptions κ} {f : FindingSet κ} {rs : List (Reference κ)}
    (hprobes : ∀ r ∈ rs, f.AgreeUnder o.tieBreak g g' r.target.probeKey →
      f.ProbesAgree o.tieBreak g g' r.target) (scope : Option String) :
    Tracks (f.AgreeUnder o.tieBreak g g') (fun _ => True)
      (o.gather (f.view g) scope rs) (o.gather (f.view g') scope rs) := by
  rw [gather, gather]
  generalize ({} : Gathered κ) = start
  induction rs generalizing start with
  | nil => exact tracks_pure trivial
  | cons r rs ih =>
    rw [foldlM_cons, foldlM_cons]
    have hstep : Tracks (f.AgreeUnder o.tieBreak g g') (fun _ => True)
        (o.bind (f.view g) scope r >>= fun b => pure (start.add (f.view g) r b))
        (o.bind (f.view g') scope r >>= fun b => pure (start.add (f.view g') r b)) :=
      tracks_bind (tracks_bindReference hg hg' (hprobes r mem_cons_self) scope)
        (fun _ => grows_pure _) fun _ _ => tracks_pure trivial
    exact tracks_bind hstep (fun _ => grows_gather _ _ _ _ _) fun _ _ =>
      ih (fun r' hr' => hprobes r' (mem_cons_of_mem r hr')) _

/-- **A contribution is determined by what is visible under the keys it notes**, and by the nodes of
the identities that are asked for. -/
theorem resolve_eq_of_probes (o : ResolverOptions κ) (key : FileKey) (f : FindingSet κ)
    (hprobes : ∀ r ∈ f.references, f.AgreeUnder o.tieBreak g g' r.target.probeKey →
      f.ProbesAgree o.tieBreak g g' r.target)
    (hagree : ∀ k ∈ (o.resolve key f g).lookups, f.AgreeUnder o.tieBreak g g' k) :
    o.resolve key f g' = o.resolve key f g := by
  have hsame := (tracks_gather hg hg' hprobes f.scope ∅ hagree).1
  have hview : ∀ g₁, o.resolve key f g₁ =
      { key := key
        path := f.path
        nodes := f.nodes
        edges := (o.gather (f.view g₁) f.scope f.references ∅).1.edges.values
        placeholders := (o.gather (f.view g₁) f.scope f.references ∅).1.placeholders.values
        lookups := (o.gather (f.view g₁) f.scope f.references ∅).2 } := fun _ => rfl
  rw [hview g, hview g', hsame]

/-- If the identities that are asked for stand under the keys noted, the keys are enough. -/
theorem resolve_eq_of_agree (o : ResolverOptions κ) (key : FileKey) (f : FindingSet κ)
    (hf : ∀ r ∈ f.references, r.target.Covered)
    (hapart : ∀ r ∈ f.references, ∀ probe ∈ r.target.probes, g.ApartFrom probe ∧ g'.ApartFrom probe)
    (hagree : ∀ k ∈ (o.resolve key f g).lookups, f.AgreeUnder o.tieBreak g g' k) :
    o.resolve key f g' = o.resolve key f g :=
  resolve_eq_of_probes hg hg' o key f
    (fun r hr h => h.probesAgree hg hg' (hf r hr) (hapart r hr)) hagree

end Resolve

end ResolverOptions

/-- **The keys that a resolution notes are all that it depends on.**  Take two graphs that stores
publish, and suppose that under each key noted against the first a file sees the same nodes in both,
introduced by the same versions.  Then the file contributes the same against both.  Identities must
not be mistaken for one another, and names must be spelled as usual. -/
theorem resolve_eq_of_same_under_lookups (o : ResolverOptions κ) (key : FileKey) (f : FindingSet κ)
    {s₁ s₂ : Store κ} (h₁ : s₁.Published) (h₂ : s₂.Published)
    (hregular : ∀ r ∈ f.references, r.target.Regular)
    (hapart : ∀ n ∈ s₁.graph.nodeList ++ s₂.graph.nodeList, n.isConcrete →
      ∀ r ∈ f.references, ∀ probe ∈ r.target.probes, NodeId.Apart (n.kind, n.signature) probe)
    (hsame : ∀ k ∈ (o.resolve key f s₁.graph).lookups,
      (∀ n : Node, n ∈ f.visible s₁.graph k ↔ n ∈ f.visible s₂.graph k) ∧
        ∀ n ∈ f.visible s₁.graph k, s₁.graph.introduced? n.id = s₂.graph.introduced? n.id) :
    o.resolve key f s₂.graph = o.resolve key f s₁.graph := by
  refine ResolverOptions.resolve_eq_of_agree h₁.sound h₂.sound o key f
    (fun r hr => (hregular r hr).covered) (fun r hr probe hp => ⟨?_, ?_⟩)
    (fun k hk => ⟨(hsame k hk).1, fun _ => (hsame k hk).2⟩)
  · exact fun id n hn hconcrete => hapart n
      (List.mem_append_left _ (mem_values.mpr ⟨id, hn⟩)) hconcrete r hr probe hp
  · exact fun id n hn hconcrete => hapart n
      (List.mem_append_right _ (mem_values.mpr ⟨id, hn⟩)) hconcrete r hr probe hp

def callingPage : FindingSet Float :=
  { path := "Page.java", artifact := .controller
    references :=
      [Reference.of .controllerMethod "app.Page.show/0" .invokes
        (.member (some ⟨"Orders", ["app.Orders"]⟩) "total" (some 1) [.serviceMethod]) 7] }

def serviceThenTable : List (Store.Call Float) :=
  let method := Node.stub .serviceMethod "app.Orders.total/1" "total"
  let table := Node.stub .table "orders" "orders"
  [.apply { key := ⟨"1"⟩, path := "Orders.java",
            nodes := [{ method with kind := .serviceMethod }] },
    .apply { key := ⟨"2"⟩, path := "orders.sql", nodes := [{ table with kind := .table }] }]

theorem resolve_callingPage_eq_with_table :
    ResolverOptions.standard.resolve ⟨"3"⟩ callingPage (Store.afterCalls serviceThenTable).graph =
      ResolverOptions.standard.resolve ⟨"3"⟩ callingPage
        (Store.afterCalls (serviceThenTable.take 1)).graph := by
  refine resolve_eq_of_same_under_lookups .standard ⟨"3"⟩ callingPage
    (Store.published_afterCalls (serviceThenTable.take 1))
    (Store.published_afterCalls serviceThenTable) (by decide +kernel) (by decide +kernel) ?_
  have hlookups : (ResolverOptions.standard.resolve ⟨"3"⟩ callingPage
      (Store.afterCalls (serviceThenTable.take 1)).graph).lookups.toList = [.member "total"] := by
    decide +kernel
  intro k hk
  rw [← ExtTreeSet.mem_toList, hlookups, List.mem_singleton] at hk
  subst hk
  have hvisible : callingPage.visible (Store.afterCalls (serviceThenTable.take 1)).graph
      (.member "total") =
        callingPage.visible (Store.afterCalls serviceThenTable).graph (.member "total") := by
    decide +kernel
  refine ⟨fun n => by rw [hvisible], ?_⟩
  decide +kernel

end AppAtlas
