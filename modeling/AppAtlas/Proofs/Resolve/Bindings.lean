import AppAtlas.Proofs.Resolve.Lookups
import AppAtlas.Settings.Basic
import Mathlib.Algebra.Order.Field.Rat
import Mathlib.Tactic.NormNum

/-!
# What a reference is bound to

A reference is bound to a stub, to the one match of its target, or to the match that was picked
among several.  `ResolverOptions.Binds` lists the three.  From the list follow the two things that
matter for the contribution: the target is defined by the file itself or comes with a stub of its
identity, and the confidence is a confidence.

The second needs exact numbers, since the product of two small doubles can be zero.

* `ResolverOptions.Binds.anchored`: the file can carry the target.
* `ResolverOptions.Binds.isUnit_confidence`: the confidence is above zero and at most one.
-/

namespace AppAtlas

open List Std OrderedMap

variable {κ : Type}

/-! ### Visible nodes -/

namespace FindingSet

variable {f : FindingSet κ} {g : Graph κ}

theorem id_of_sees (hg : g.Sound) {id : NodeId} {n : Node} (hn : g.nodes[id]? = some n)
    (hsees : (f.view g).sees n) : n.id = NodeId.of n.kind n.signature := by
  rw [(hg id n hn).2, Node.expectedId_of_isConcrete (isConcrete_of_sees hsees)]

theorem id_of_view_node? (hg : g.Sound) {id : NodeId} {n : Node}
    (h : (f.view g).node? id = some n) : n.id = NodeId.of n.kind n.signature := by
  cases hlocal : f.localNodes[id]? with
  | some m =>
    rw [node?_of_local hlocal] at h
    split at h
    · cases h
      exact (localNodes_spec hlocal).2.1
    · cases h
  | none =>
    rw [node?_of_not_local hlocal] at h
    obtain ⟨hnode, hsees⟩ := Option.filter_eq_some_iff.mp h
    exact id_of_sees hg hnode hsees

theorem id_of_candidate (hg : g.Sound) {key : LookupKey} {n : Node}
    (h : n ∈ (f.view g).candidates key) : n.id = NodeId.of n.kind n.signature := by
  rw [candidates_eq, Node.sorted, mem_mergeSort, mem_append, mem_filter] at h
  rcases h with ⟨hlocal, -⟩ | hvisible
  · obtain ⟨id, hid⟩ := mem_values.mp hlocal
    exact (localNodes_spec hid).2.1
  · obtain ⟨hnode, -, -, hsees⟩ := (mem_visible hg).mp hvisible
    exact id_of_sees hg hnode hsees

end FindingSet

variable [Confidence κ]

/-! ### Searches -/

namespace Consulting

variable {α β : Type} {result : α → Prop} {result' : β → Prop}

/-- The result of a computation has a property, whatever keys were noted before. -/
def Ensures (result : α → Prop) (x : Consulting α) : Prop :=
  ∀ keys : LookupKeys, result (x keys).1

theorem ensures_pure {a : α} (h : result a) : Ensures result (pure a) := fun _ => h

theorem ensures_bind {x : Consulting α} {f : α → Consulting β} (hx : Ensures result x)
    (hf : ∀ a, result a → Ensures result' (f a)) : Ensures result' (x >>= f) := fun keys =>
  hf (x keys).1 (hx keys) (x keys).2

theorem ensures_consult (key : LookupKey) : Ensures (fun _ => True) (consult key) :=
  fun _ => trivial

end Consulting

open Consulting

namespace Search

variable {P : Node → Prop} {s : Search κ}

section Find

variable (hcandidates : ∀ (key : LookupKey), ∀ n ∈ s.view.candidates key, P n)

include hcandidates

omit [Confidence κ] in
theorem ensures_lookup (key : LookupKey) :
    Ensures (fun hits => ∀ n ∈ hits, P n) (s.view.lookup key) :=
  ensures_bind (ensures_consult key) fun _ _ => ensures_pure (hcandidates key)

theorem ensures_route (path : String) (verb : Option String) (relative : Bool) :
    Ensures (s.Finds P) (s.route path verb relative) := by
  rw [route]
  refine ensures_bind (ensures_lookup hcandidates _) fun hits hhits => ?_
  have hfinds := finds_routeAmong s hhits (Route.normalize path) verb
  split
  · next m hm =>
    rw [hm] at hfinds
    exact ensures_pure hfinds
  · refine ensures_bind (ensures_lookup hcandidates _) fun alike halike => ?_
    refine ensures_bind (ensures_lookup hcandidates _) fun templates htemplates => ?_
    refine ensures_pure (finds_similarRoutes? fun n hn => ?_)
    rcases mem_append.mp hn with hn | hn
    · exact halike n hn
    · exact htemplates n hn

/-- **A search finds visible nodes only.** -/
theorem ensures_find (hnode : ∀ id n, s.view.node? id = some n → P n)
    (t : Target) (relative : Bool) : Ensures (s.Finds P) (s.find t relative) := by
  have hprobing : ∀ t, s.Probing P t := fun _ _ _ n hn => hnode _ n hn
  have hlookup := fun key => ensures_lookup hcandidates key
  cases t with
  | member owner name arity kinds =>
    exact ensures_bind (hlookup _) fun _ hhits =>
      ensures_pure (finds_memberAmong (hprobing _) hhits)
  | type t kinds =>
    exact ensures_bind (hlookup _) fun _ hhits =>
      ensures_pure (finds_typeAmong (hprobing (.type t kinds)) hhits)
  | route path verb => exact ensures_route hcandidates path verb relative
  | resource path =>
    exact ensures_bind (hlookup _) fun _ hhits => ensures_pure (finds_pageAmong (hprobing _) hhits)
  | statement id =>
    exact ensures_bind (hlookup _) fun _ hhits =>
      ensures_pure (finds_statementAmong (hprobing _) hhits)
  | table name =>
    exact ensures_bind (ensures_consult _) fun _ _ => ensures_pure (finds_tableMatch (hprobing _))
  | tablePattern text =>
    rw [find]
    split
    · exact ensures_bind (hlookup _) fun _ hhits => ensures_pure (finds_patternAmong hhits)
    · exact ensures_pure finds_none
  | column table name candidates =>
    exact ensures_bind (hlookup _) fun _ hhits =>
      ensures_pure (finds_columnAmong (hprobing _) hhits)

end Find

end Search

/-! ### The ways to bind -/

namespace ResolverOptions

def searchFor (o : ResolverOptions κ) (v : View κ) (r : Reference κ) : Search κ :=
  { view := v, exclude := NodeId.of r.fromKind r.source, minSimilarity := o.minSimilarity }

/-- **What a reference can be bound to**: a stub, the one match that is left, or the match that is
picked among several. -/
inductive Binds (P : Node → Prop) (o : ResolverOptions κ) (v : View κ) (r : Reference κ) :
    Binding κ → Prop where
  | stub : Binds P o v r (o.bindStub r)
  | only {m : Matches κ} {n : Node} (hm : m.From P (o.searchFor v r)) (hn : P n) :
    Binds P o v r (bindNode v r n (r.confidence * o.weight m) [])
  | picked {m : Matches κ} {n : Node} (hm : m.From P (o.searchFor v r)) (hn : P n)
    (candidates : List String) :
    Binds P o v r
      (bindNode v r n (Confidence.min (r.confidence * o.weight m) o.ambiguityCap) candidates)

variable {P : Node → Prop} {o : ResolverOptions κ} {v : View κ} {r : Reference κ}

omit [Confidence κ] in
theorem mem_of_pick? {nodes : List Node} {n : Node} (h : o.pick? v nodes = some n) : n ∈ nodes := by
  cases nodes with
  | nil => exact absurd h (by simp [pick?])
  | cons first rest =>
    obtain rfl := Option.some.inj h
    clear h
    induction rest generalizing first with
    | nil => exact mem_cons_self
    | cons m rest ih =>
      rw [foldl_cons]
      -- the better of the first two takes the place of both
      rcases mem_cons.mp (ih (if o.prefers v first m then first else m)) with hbest | hrest
      · rw [hbest]
        split
        · exact mem_cons_self
        · exact mem_cons_of_mem _ mem_cons_self
      · exact mem_cons_of_mem _ (mem_cons_of_mem _ hrest)

theorem binds_bindMatches {m : Matches κ} (hm : m.From P (o.searchFor v r))
    (hnodes : ∀ n ∈ m.nodes, P n) (scope : Option String) :
    o.Binds P v r (o.bindMatches v r scope m) := by
  have htied : ∀ n ∈ (if (scope.elim [] fun s => m.nodes.filter fun n => n.scope? == some s).isEmpty
      then m.nodes else scope.elim [] fun s => m.nodes.filter fun n => n.scope? == some s),
      P n := by
    intro n hn
    split at hn
    · exact hnodes n hn
    · cases scope with
      | none => cases hn
      | some s => exact hnodes n (mem_filter.mp hn).1
  rw [bindMatches]
  split
  · next only honly => exact .only hm (htied only (honly ▸ mem_singleton_self _))
  · split
    · exact .stub
    · next winner hwinner => exact .picked hm (htied winner (mem_of_pick? hwinner)) _

/-- **A reference is bound in one of the three ways.** -/
theorem ensures_bindReference (hcandidates : ∀ key, ∀ n ∈ v.candidates key, P n)
    (hnode : ∀ id n, v.node? id = some n → P n) (scope : Option String) :
    Ensures (o.Binds P v r) (o.bind v scope r) := by
  rw [bind]
  refine ensures_bind (Search.ensures_find (s := o.searchFor v r) hcandidates hnode _ _)
    fun found hfound => ?_
  cases found with
  | none => exact ensures_pure .stub
  | some m => exact ensures_pure (binds_bindMatches (hfound m rfl) (hfound.within m rfl) scope)

end ResolverOptions

/-! ### Targets -/

namespace Node

theorem expectedId_stub (kind : NodeKind) (signature reference : String) :
    (stub kind signature reference).expectedId = NodeId.of kind signature := by
  have hname : (stub kind signature reference).attribute? expectedKindKey = some kind.name := rfl
  rw [expectedId, expectedKind?, hname, Option.bind_some, NodeKind.parse?_name]
  rfl

theorem expectedId_marker (path : String) (line : Nat) (message : String) :
    (marker path line message).expectedId = (marker path line message).id := by
  have hname : (marker path line message).attribute? expectedKindKey = none := rfl
  rw [expectedId, expectedKind?, hname]
  rfl

/-- A stub with the identity that its kind and signature give. -/
def IsPlaceholder (n : Node) : Prop := n.isStub = true ∧ n.id = n.expectedId

theorem isPlaceholder_stub (kind : NodeKind) (signature reference : String) :
    (stub kind signature reference).IsPlaceholder :=
  ⟨rfl, (expectedId_stub kind signature reference).symm⟩

end Node

/-- **A binding is anchored in a file**: its target is defined there or comes with a stub of its
identity. -/
structure Binding.Anchored (v : View κ) (b : Binding κ) : Prop where
  placeholder : ∀ n : Node, b.placeholder = some n → n.IsPlaceholder
  target : v.isLocal b.target = true ∨ ∃ n : Node, b.placeholder = some n ∧ n.id = b.target

namespace ResolverOptions

variable {o : ResolverOptions κ} {v : View κ} {r : Reference κ} {b : Binding κ}

omit [Confidence κ] in
theorem anchored_bindNode {n : Node} (hn : n.id = NodeId.of n.kind n.signature) (confidence : κ)
    (candidates : List String) : (bindNode v r n confidence candidates).Anchored v := by
  rw [bindNode]
  by_cases hlocal : v.isLocal n.id
  · refine ⟨fun m hm => ?_, .inl hlocal⟩
    rw [if_pos hlocal] at hm
    cases hm
  · rw [if_neg hlocal]
    refine ⟨fun m hm => ?_, .inr ⟨_, rfl, hn.symm⟩⟩
    cases hm
    exact Node.isPlaceholder_stub n.kind n.signature r.target.describe

/-- **The file can carry the target of a reference.** -/
theorem Binds.anchored (h : o.Binds (fun n => n.id = NodeId.of n.kind n.signature) v r b) :
    b.Anchored v := by
  cases h with
  | stub =>
    refine ⟨fun n hn => ?_, .inr ⟨_, rfl, rfl⟩⟩
    cases hn
    exact Node.isPlaceholder_stub _ _ _
  | only hm hn => exact anchored_bindNode hn _ _
  | picked hm hn candidates => exact anchored_bindNode hn _ _

end ResolverOptions

/-! ### Confidences -/

namespace Confidence

theorem min_of {U : κ → Prop} {x y : κ} (hx : U x) (hy : U y) : U (min x y) := by
  rw [min]
  split
  · exact hy
  · exact hx

theorem isUnit_iff {x : Rat} : isUnit x ↔ 0 < x ∧ x ≤ 1 := by
  have hzero : (0.0 : Rat) = 0 := by norm_num
  have hone : (1.0 : Rat) = 1 := by norm_num
  rw [isUnit, Bool.and_eq_true, decide_eq_true_iff, decide_eq_true_iff, ← hzero, ← hone]

theorem isUnit_mul {x y : Rat} (hx : isUnit x) (hy : isUnit y) : isUnit (x * y) := by
  rw [isUnit_iff] at *
  exact ⟨mul_pos hx.1 hy.1, mul_le_one₀ hx.2 hy.1.le hy.2⟩

end Confidence

open Confidence

namespace Search

theorem Score.le_one {x : Rat} (h : Score x) : x ≤ 1 := by
  cases h with
  | one =>
    show (1.0 : Rat) ≤ 1
    norm_num
  | otherArity =>
    show (0.6 : Rat) ≤ 1
    norm_num
  | otherNamespace =>
    show (0.5 : Rat) ≤ 1
    norm_num
  | share hle => exact div_le_one_of_le₀ (Nat.cast_le.mpr hle) (Nat.cast_nonneg _)

/-- The similarity of the most similar nodes is the score of one of them, and is not below any of
those that are similar enough. -/
theorem similarity_of_fuzzy? [Ordered κ] {s : Search κ} {scored : List (Node × κ)} {m : Matches κ}
    (h : s.fuzzy? scored = some m) : (m.similarity = 0.0 ∨ ∃ x ∈ scored, m.similarity = x.2) ∧
      ∃ x ∈ scored, s.minSimilarity ≤ x.2 ∧ ¬m.similarity < x.2 := by
  rw [fuzzy?] at h
  dsimp only at h
  split at h
  · cases h
  · next hkept =>
    cases h
    obtain ⟨n, hn⟩ := exists_mem_of_ne_nil _ (mt isEmpty_iff.mpr hkept)
    obtain ⟨x, hx, -⟩ := mem_map.mp (mem_of_mem_tidy hn)
    have henough := (mem_filter.mp hx).1
    have hscored := mem_filter.mp henough
    constructor
    · rcases mem_cons.mp (foldl_max_mem _ (0.0 : κ)) with hzero | hmem
      · exact .inl hzero
      · obtain ⟨y, hy, hyx⟩ := mem_map.mp hmem
        exact .inr ⟨y, (mem_filter.mp hy).1, hyx.symm⟩
    · refine ⟨x, hscored.1, ?_, ?_⟩
      · have hboth := hscored.2
        rw [Bool.and_eq_true, decide_eq_true_iff] at hboth
        exact hboth.2
      · exact not_foldl_max_lt_mem _ _ _
          (mem_cons_of_mem _ (mem_map_of_mem henough))

/-- **The similarity of matches is a confidence**, if the least that is asked for is one. -/
theorem isUnit_similarity {P : Node → Prop} {s : Search Rat} {m : Matches Rat}
    (hm : m.From P s) (hmin : isUnit s.minSimilarity) : isUnit m.similarity := by
  have hone : isUnit (1.0 : Rat) := by decide +kernel
  cases hm with
  | exact => exact hone
  | name => exact hone
  | fuzzy hscored hfuzzy =>
    obtain ⟨hscore, x, hx, hleast, hgreatest⟩ := similarity_of_fuzzy? hfuzzy
    rw [isUnit_iff] at hmin ⊢
    have hpos : 0 < m.similarity := calc
      0 < s.minSimilarity := hmin.1
      _ ≤ x.2 := hleast
      _ ≤ m.similarity := Rat.not_lt.mp hgreatest
    refine ⟨hpos, ?_⟩
    rcases hscore with hzero | ⟨y, hy, heq⟩
    · rw [hzero] at hpos
      exact absurd hpos (by norm_num)
    · rw [heq]
      exact (hscored y hy).2.le_one

end Search

namespace ResolverOptions

structure Units (o : ResolverOptions κ) : Prop where
  name : isUnit o.nameWeight = true
  fuzzy : isUnit o.fuzzyWeight = true
  similarity : isUnit o.minSimilarity = true
  stub : isUnit o.stubCap = true
  ambiguity : isUnit o.ambiguityCap = true

variable {P : Node → Prop} {o : ResolverOptions Rat} {v : View Rat} {r : Reference Rat}

theorem isUnit_weight (ho : o.Units) {m : Matches Rat} (hm : m.From P (o.searchFor v r)) :
    isUnit (o.weight m) := by
  rw [weight]
  split
  · decide +kernel
  · exact ho.name
  · exact isUnit_mul ho.fuzzy (Search.isUnit_similarity hm ho.similarity)

/-- **The confidence of a bound reference is a confidence.** -/
theorem Binds.isUnit_confidence (ho : o.Units) (hr : isUnit r.confidence) {b : Binding Rat}
    (h : o.Binds P v r b) : isUnit b.confidence := by
  cases h with
  | stub => exact min_of (U := (isUnit ·)) hr ho.stub
  | only hm hn => exact isUnit_mul hr (isUnit_weight ho hm)
  | picked hm hn candidates =>
    exact min_of (U := (isUnit ·)) (isUnit_mul hr (isUnit_weight ho hm)) ho.ambiguity

end ResolverOptions

theorem Settings.units {s : Settings κ} (h : s.fault? = none) : s.resolver.Units := by
  rw [fault?] at h
  simp only [Option.orElse_eq_orElse, Option.orElse_eq_or, Option.or_eq_none_iff,
    findSome?_eq_none_iff] at h
  have hunit : ∀ x ∈ s.resolverUnits, isUnit x.2 := by
    intro x hx
    have hfault := h.1 x hx
    rw [unitFault?] at hfault
    split at hfault
    · next hunit => exact hunit
    · cases hfault
  simp only [resolverUnits, forall_mem_cons] at hunit
  obtain ⟨hname, hfuzzy, hsimilarity, hstub, hambiguity, -⟩ := hunit
  exact ⟨hname, hfuzzy, hsimilarity, hstub, hambiguity⟩

end AppAtlas
