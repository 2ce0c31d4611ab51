import AppAtlas.Proofs.Resolve.Sound

/-!
# Stubs that are promoted in place

A reference to something that is not there is bound to a stub.  The stub has the identity that the
missing definition would have, so that once the definition is there, the reference finds it by that
identity and its edge stays the edge it was.  Two pieces of code have to agree for this: the one
that names the identity of a stub, and the one that lists the identities a search asks for.

* `ResolverOptions.ensures_gather_links`: the edge of a reference has the identity that its target
  gives it.
* `stub_promoted_in_place`: the edge to the stub and the edge to the definition are one edge.
-/

namespace AppAtlas

open List Std OrderedMap Consulting

variable {κ : Type}

/-! ### The identity of a stub -/

namespace Target

def stubId (t : Target) : NodeId := NodeId.of t.expectedKind t.expectedSignature

/-- **A target names one identity**: it is a member of a type with a known number of parameters and
of kinds of methods, a type of kinds of types, a page, a statement, a table, or a column for which
there is a table. -/
def NamesIdentity : Target → Prop
  | member owner _ arity kinds => owner.isSome ∧ arity.isSome ∧ ∀ k ∈ kinds, k.isMethod
  | type _ kinds => ∀ k ∈ kinds, k.isType
  | route _ _ => False
  | resource _ => True
  | statement _ => True
  | table _ => True
  | tablePattern _ => False
  | column owner _ candidates => owner.isSome ∨ candidates ≠ []

instance : DecidablePred NamesIdentity := fun t =>
  match t with
  | member _ _ _ _ => inferInstanceAs (Decidable (_ ∧ _ ∧ ∀ _ ∈ _, _))
  | type _ _ => inferInstanceAs (Decidable (∀ _ ∈ _, _))
  | route _ _ | tablePattern _ => inferInstanceAs (Decidable False)
  | resource _ | statement _ | table _ => inferInstanceAs (Decidable True)
  | column _ _ _ => inferInstanceAs (Decidable (_ ∨ _))

end Target

theorem TypeRef.exists_fullNames (t : TypeRef) : ∃ rest, t.fullNames = t.primary :: rest := by
  obtain ⟨name, candidates⟩ := t
  cases candidates with
  | nil => exact ⟨[], rfl⟩
  | cons full rest => exact ⟨rest, rfl⟩

namespace NodeKind

theorem space_of_isMethod {k : NodeKind} (h : k.isMethod) : k.space = serviceMethod.space := by
  cases k <;> first | rfl | cases h

theorem space_of_isType {k : NodeKind} (h : k.isType) : k.space = service.space := by
  cases k <;> first | rfl | cases h

theorem eq_stub_of_space {k : NodeKind} (h : k.space = stub.space) : k = stub := by
  cases k <;> first | rfl | exact absurd h (by decide)

theorem passes_of_space {k k' : NodeKind} (h : k.space = k'.space) :
    k.isMethod = k'.isMethod ∧ k.isType = k'.isType ∧
      (k == page || k == fragment) = (k' == page || k' == fragment) ∧
      (k == statement) = (k' == statement) ∧ (k == table) = (k' == table) ∧
      (k == column) = (k' == column) := by
  cases k <;> cases k' <;> first | decide | exact absurd h (by decide)

end NodeKind

theorem NodeId.of_congr {k k' : NodeKind} (h : k.space = k'.space) (signature : String) :
    NodeId.of k signature = NodeId.of k' signature := by
  rw [NodeId.of, NodeId.of, NodeId.bytes, NodeId.bytes, h]

namespace Target

/-- **The first identity that a search asks for is the identity of the stub**, unless no kind is
expected. -/
theorem exists_probes {t : Target} (ht : t.NamesIdentity) (hkind : t.expectedKind ≠ .stub) :
    ∃ kind rest,
      t.probes = (kind, t.expectedSignature) :: rest ∧ t.expectedKind.space = kind.space := by
  cases t with
  | member owner name arity kinds =>
    obtain ⟨howner, harity, hkinds⟩ := ht
    obtain ⟨owner, rfl⟩ := Option.isSome_iff_exists.mp howner
    obtain ⟨arity, rfl⟩ := Option.isSome_iff_exists.mp harity
    obtain ⟨rest, hrest⟩ := owner.exists_fullNames
    refine ⟨.serviceMethod, _, by rw [probes, hrest]; rfl, ?_⟩
    cases kinds with
    | nil => exact absurd rfl hkind
    | cons k ks => exact NodeKind.space_of_isMethod (hkinds k mem_cons_self)
  | type t kinds =>
    obtain ⟨rest, hrest⟩ := t.exists_fullNames
    refine ⟨.service, _, by rw [probes, hrest]; rfl, ?_⟩
    cases kinds with
    | nil => exact absurd rfl hkind
    | cons k ks => exact NodeKind.space_of_isType (ht k mem_cons_self)
  | route path verb => exact absurd ht (by simp [NamesIdentity])
  | resource path =>
    refine ⟨.page, [], rfl, ?_⟩
    rw [expectedKind]
    split <;> rfl
  | statement id => exact ⟨.statement, [], rfl, rfl⟩
  | table name => exact ⟨.table, [], rfl, rfl⟩
  | tablePattern pattern => exact absurd ht (by simp [NamesIdentity])
  | column owner name candidates =>
    cases owner with
    | some table => exact ⟨.column, _, rfl, rfl⟩
    | none =>
      cases candidates with
      | nil => exact absurd ht (by simp [NamesIdentity])
      | cons table rest => exact ⟨.column, _, rfl, rfl⟩

end Target

/-! ### The exact match -/

theorem FindingSet.id_of_node? {f : FindingSet κ} {g : Graph κ} (hg : g.Sound) {id : NodeId}
    {n : Node} (h : (f.view g).node? id = some n) : n.id = id := by
  cases hlocal : f.localNodes[id]? with
  | some m =>
    rw [node?_of_local hlocal] at h
    split at h
    · exact Option.some.inj h ▸ id_of_localNodes hlocal
    · cases h
  | none =>
    rw [node?_of_not_local hlocal] at h
    exact (hg id n (Option.filter_eq_some_iff.mp h).1).1

theorem View.isConcrete_of_node? {v : View κ} {id : NodeId} {n : Node} (h : v.node? id = some n) :
    n.isConcrete := by
  rw [View.node?] at h
  split at h
  · split at h
    · next hconcrete =>
      cases h
      exact hconcrete
    · cases h
  · obtain ⟨-, hsees⟩ := Option.filter_eq_some_iff.mp h
    rw [View.sees, Bool.and_eq_true] at hsees
    exact hsees.1

variable [Confidence κ]

namespace Search

variable {s : Search κ} {t : Target} {n : Node}

def exactMatch (n : Node) : Matches κ := ⟨.exact, [n], 1.0⟩

theorem exactly?_of_node? {kind : NodeKind} {signature : String}
    (hn : s.view.node? (NodeId.of kind signature) = some n) {keep : Node → Bool} (hkeep : keep n) :
    exactly? ((s.view.node? (NodeId.of kind signature)).filter keep).toList =
      some (exactMatch n : Matches κ) := by
  rw [hn, Option.filter_some, hkeep]
  rfl

/-- **A definition that has the first identity asked for, and is of a kind that shares it, is the
one exact match.** -/
theorem ensures_find_of_probe {kind : NodeKind} {signature : String}
    {rest : List (NodeKind × String)} (hprobes : t.probes = (kind, signature) :: rest)
    (hn : s.view.node? (NodeId.of kind signature) = some n) (hspace : n.kind.space = kind.space)
    (relative : Bool) : Ensures (· = some (exactMatch n)) (s.find t relative) := by
  have hlookup : ∀ key, Ensures (fun _ => True) (s.view.lookup key) :=
    fun _ _ => trivial
  have hpasses := NodeKind.passes_of_space hspace
  cases t with
  | member owner name arity kinds =>
    cases owner with
    | none => exact absurd hprobes (by simp [Target.probes])
    | some owner =>
      cases arity with
      | none => exact absurd hprobes (by simp [Target.probes])
      | some arity =>
        refine ensures_bind (hlookup _) fun hits _ => ensures_pure ?_
        obtain ⟨names, hnames⟩ := owner.exists_fullNames
        rw [Target.probes, hnames, map_cons, cons.injEq, Prod.mk.injEq] at hprobes
        obtain ⟨⟨rfl, rfl⟩, -⟩ := hprobes
        rw [memberAmong, Option.bind_some, exactMembers?, hnames, findSome?_cons,
          exactly?_of_node? hn hpasses.1]
        rfl
  | type t kinds =>
    refine ensures_bind (hlookup _) fun hits _ => ensures_pure ?_
    obtain ⟨names, hnames⟩ := t.exists_fullNames
    rw [Target.probes, hnames, map_cons, cons.injEq, Prod.mk.injEq] at hprobes
    obtain ⟨⟨rfl, rfl⟩, -⟩ := hprobes
    rw [typeAmong, hnames, findSome?_cons, exactly?_of_node? hn hpasses.2.1]
    rfl
  | route path verb => exact absurd hprobes (by simp [Target.probes])
  | resource path =>
    refine ensures_bind (hlookup _) fun hits _ => ensures_pure ?_
    rw [Target.probes, cons.injEq, Prod.mk.injEq] at hprobes
    obtain ⟨⟨rfl, rfl⟩, -⟩ := hprobes
    rw [pageAmong, exactly?_of_node? hn hpasses.2.2.1]
    rfl
  | statement id =>
    refine ensures_bind (hlookup _) fun hits _ => ensures_pure ?_
    rw [Target.probes, cons.injEq, Prod.mk.injEq] at hprobes
    obtain ⟨⟨rfl, rfl⟩, -⟩ := hprobes
    rw [statementAmong, exactly?_of_node? hn hpasses.2.2.2.1]
    rfl
  | table name =>
    refine ensures_bind (ensures_consult _) fun _ _ => ensures_pure ?_
    rw [Target.probes, cons.injEq, Prod.mk.injEq] at hprobes
    obtain ⟨⟨rfl, rfl⟩, -⟩ := hprobes
    rw [tableMatch, exactly?_of_node? hn hpasses.2.2.2.2.1]
  | tablePattern pattern => exact absurd hprobes (by simp [Target.probes])
  | column owner name candidates =>
    refine ensures_bind (hlookup _) fun hits _ => ensures_pure ?_
    rw [Target.probes] at hprobes
    cases htables : owner.toList ++ candidates with
    | nil => exact absurd hprobes (by simp [htables])
    | cons table tables =>
      rw [htables, map_cons, cons.injEq, Prod.mk.injEq] at hprobes
      obtain ⟨⟨rfl, rfl⟩, -⟩ := hprobes
      rw [columnAmong, htables, map_cons, findSome?_cons,
        exactly?_of_node? hn hpasses.2.2.2.2.2]
      rfl

/-- **A definition with the identity of the stub is the one exact match.** -/
theorem ensures_find_exact (ht : t.NamesIdentity) (hn : s.view.node? t.stubId = some n)
    (hspace : n.kind.space = t.expectedKind.space) (relative : Bool) :
    Ensures (· = some (exactMatch n)) (s.find t relative) := by
  have hkind : t.expectedKind ≠ .stub := by
    intro hstub
    have hconcrete := View.isConcrete_of_node? hn
    rw [hstub] at hspace
    rw [Node.isConcrete, Node.isStub, NodeKind.eq_stub_of_space hspace] at hconcrete
    cases hconcrete
  obtain ⟨kind, rest, hprobes, hsame⟩ := Target.exists_probes ht hkind
  rw [Target.stubId, NodeId.of_congr hsame] at hn
  exact ensures_find_of_probe hprobes hn (hspace.trans hsame) relative

end Search

/-! ### The edge of a reference -/

namespace Gathered

variable {g : Gathered κ} {v : View κ} {r : Reference κ} {other : NodeId}

/-- Edges stand under their own identities. -/
def Keyed (g : Gathered κ) : Prop :=
  ∀ (id : EdgeId) (e : Edge κ), g.edges[id]? = some e → e.id = id

/-- There is an edge with the identity that a reference to a node gives it, and the line of the
reference speaks for it. -/
def Links (g : Gathered κ) (path : String) (r : Reference κ) (other : NodeId) : Prop :=
  ∃ e : Edge κ, g.edges[r.edgeId other]? = some e ∧ ∃ x ∈ e.evidence, x.file = path ∧ x.line = r.line

omit [Confidence κ] in
theorem edges_withEnds (g : Gathered κ) (v : View κ) (r : Reference κ) (b : Binding κ) :
    (g.withEnds v r b).edges = g.edges := by
  rw [withEnds]
  cases b.placeholder <;> dsimp only [Option.elim] <;> split <;> rfl

theorem Keyed.add (h : g.Keyed) (v : View κ) (r : Reference κ) (b : Binding κ) :
    (g.add v r b).Keyed := by
  intro id e he
  rw [Gathered.add, getElem?_addEdge, edges_withEnds] at he
  split at he
  · next hid =>
    cases hheld : g.edges[id]? with
    | none =>
      rw [hheld] at he
      exact Option.some.inj he ▸ hid
    | some held =>
      rw [hheld] at he
      exact Option.some.inj he ▸ h id held hheld
  · exact h id e he

theorem Links.add (h : g.Links v.path r other) (r' : Reference κ) (b : Binding κ) :
    (g.add v r' b).Links v.path r other := by
  obtain ⟨e, he, x, hx, hplace⟩ := h
  rw [← edges_withEnds g v r' b] at he
  obtain ⟨e', he', hevidence⟩ := exists_addEdge he (edgeOf v.path r' b)
  exact ⟨e', he', x, hevidence x hx, hplace⟩

theorem links_add (g : Gathered κ) (v : View κ) (r : Reference κ) (b : Binding κ) :
    (g.add v r b).Links v.path r b.target := by
  obtain ⟨hid, -, -, ⟨x, hx, hplace⟩, -⟩ := edgeOf_spec v.path r b
  obtain ⟨e, he, hevidence⟩ := exists_addEdge_self (g.withEnds v r b) (edgeOf v.path r b)
  exact ⟨e, hid ▸ he, x, hevidence x hx, hplace⟩

end Gathered

namespace ResolverOptions

variable {o : ResolverOptions κ} {v : View κ} {r : Reference κ} {other : NodeId}
  {f : FindingSet κ} {g : Graph κ}

/-- **The edge of a reference has the identity that its target gives it**, whatever the other
references are bound to. -/
theorem ensures_gather_links {rs : List (Reference κ)} (hr : r ∈ rs) {scope : Option String}
    (hbind : Ensures (fun b => b.target = other) (o.bind v scope r)) :
    Ensures (fun g => g.Keyed ∧ g.Links v.path r other) (o.gather v scope rs) := by
  -- the edge is there as soon as the reference has been bound, and stays
  have hfold : ∀ (rest : List (Reference κ)) (start : Gathered κ), start.Keyed →
      r ∈ rest ∨ start.Links v.path r other →
      Ensures (fun g => g.Keyed ∧ g.Links v.path r other)
        (rest.foldlM (fun g r => return g.add v r (← o.bind v scope r)) start) := by
    intro rest
    induction rest with
    | nil =>
      intro start hkeyed hlinks
      exact ensures_pure ⟨hkeyed, hlinks.resolve_left not_mem_nil⟩
    | cons r' rest ih =>
      intro start hkeyed hlinks
      rw [foldlM_cons]
      have hstep : Ensures (fun g => g.Keyed ∧ (r ∈ rest ∨ g.Links v.path r other))
          (o.bind v scope r' >>= fun b => pure (start.add v r' b)) := by
        by_cases hrest : r ∈ rest ∨ start.Links v.path r other
        · have hany : Ensures (fun _ => True) (o.bind v scope r') := fun _ => trivial
          refine ensures_bind hany fun b _ => ?_
          exact ensures_pure ⟨hkeyed.add v r' b, hrest.imp_right fun h => h.add r' b⟩
        · have hthis : r = r' := by
            rcases hlinks with hmem | hlinks
            · exact (mem_cons.mp hmem).resolve_right fun h => hrest (.inl h)
            · exact absurd (.inr hlinks) hrest
          subst hthis
          refine ensures_bind hbind fun b hb => ensures_pure ⟨hkeyed.add v r b, .inr ?_⟩
          rw [← hb]
          exact Gathered.links_add start v r b
      exact ensures_bind hstep fun g hg => ih g hg.1 hg.2
  refine hfold rs {} (fun id e he => ?_) (.inl hr)
  rw [ExtTreeMap.getElem?_empty] at he
  cases he

theorem exists_edge_resolve (hr : r ∈ f.references)
    (hbind : Ensures (fun b => b.target = other) (o.bind (f.view g) f.scope r)) (key : FileKey) :
    ∃ e ∈ (o.resolve key f g).edges, e.id = r.edgeId other ∧
      ∃ x ∈ e.evidence, x.file = f.path ∧ x.line = r.line := by
  obtain ⟨hkeyed, e, he, hevidence⟩ := ensures_gather_links hr hbind ∅
  exact ⟨e, mem_values.mpr ⟨_, he⟩, hkeyed _ e he, hevidence⟩

theorem ensures_bind_stub {scope : Option String}
    (hnone : Ensures (· = none) ((o.searchFor v r).find r.target (r.note == some relativeNote))) :
    Ensures (fun b => b.target = r.target.stubId) (o.bind v scope r) := by
  rw [bind]
  refine ensures_bind hnone fun found hfound => ?_
  subst hfound
  exact ensures_pure rfl

theorem target_bindMatches_single (rank : Rank) (n : Node) (similarity : κ)
    (scope : Option String) : (o.bindMatches v r scope ⟨rank, [n], similarity⟩).target = n.id := by
  cases scope with
  | none => rfl
  | some s =>
    cases hs : n.scope? == some s with
    | true => simp only [bindMatches, Option.elim, filter, hs]; rfl
    | false => simp only [bindMatches, Option.elim, filter, hs]; rfl

theorem ensures_bind_exact {scope : Option String} {n : Node}
    (hfind : Ensures (· = some (Search.exactMatch n))
      ((o.searchFor v r).find r.target (r.note == some relativeNote))) :
    Ensures (fun b => b.target = n.id) (o.bind v scope r) := by
  rw [bind]
  refine ensures_bind hfind fun found hfound => ?_
  subst hfound
  exact ensures_pure (target_bindMatches_single .exact n 1.0 scope)

end ResolverOptions

/-- **A stub is promoted in place.**  Take a target that names an identity, and suppose that a file
sees a definition that has the identity of the stub for the target, and not by a collision.  Then
every search for the target finds exactly this definition.  And if a reference of the file to the
target was bound to the stub before, against another graph, then the edge that it had and the edge
that it has now have one identity. -/
theorem stub_promoted_in_place {f : FindingSet κ} {g : Graph κ} (hg : g.Sound) {t : Target}
    (ht : t.NamesIdentity) {n : Node} (hn : (f.view g).node? t.stubId = some n)
    (hapart : NodeId.Apart (n.kind, n.signature) (t.expectedKind, t.expectedSignature)) :
    (∀ (exclude : NodeId) (minSimilarity : κ) (relative : Bool) (keys : LookupKeys),
      ((f.search g exclude minSimilarity).find t relative keys).1 = some ⟨.exact, [n], 1.0⟩) ∧
    ∀ (o : ResolverOptions κ), ∀ r ∈ f.references, r.target = t → ∀ (g₀ : Graph κ),
      (∀ keys : LookupKeys, ((f.search g₀ (NodeId.of r.fromKind r.source) o.minSimilarity).find t
        (r.note == some relativeNote) keys).1 = none) → ∀ key₀ key : FileKey,
      ∃ e₀ ∈ (o.resolve key₀ f g₀).edges, ∃ e ∈ (o.resolve key f g).edges,
        e₀.id = r.edgeId t.stubId ∧ e.id = r.edgeId n.id ∧ e₀.id = e.id ∧
        (∃ x ∈ e₀.evidence, x.file = f.path ∧ x.line = r.line) ∧
        ∃ x ∈ e.evidence, x.file = f.path ∧ x.line = r.line := by
  have hid : n.id = t.stubId := FindingSet.id_of_node? hg hn
  have hspace : n.kind.space = t.expectedKind.space :=
    (hapart (by rw [← FindingSet.id_of_view_node? hg hn, hid]; rfl)).1
  refine ⟨fun exclude minSimilarity relative keys =>
    Search.ensures_find_exact (s := f.search g exclude minSimilarity) ht hn hspace relative keys,
    fun o r hr htarget g₀ hnone key₀ key => ?_⟩
  subst htarget
  obtain ⟨e₀, he₀, hid₀, hevidence₀⟩ :=
    ResolverOptions.exists_edge_resolve hr (ResolverOptions.ensures_bind_stub hnone) key₀
  obtain ⟨e, he, hide, hevidence⟩ := ResolverOptions.exists_edge_resolve hr
    (ResolverOptions.ensures_bind_exact (Search.ensures_find_exact ht hn hspace _)) key
  exact ⟨e₀, he₀, e, he, hid₀, hide, by rw [hid₀, hide, hid], hevidence₀, hevidence⟩

/-- The call of a page goes to a stub as long as nothing is there, and to the method of the service
once that is entered. -/
theorem callingPage_promoted_in_place :
    let target : Target :=
      .member (some ⟨"Orders", ["app.Orders"]⟩) "total" (some 1) [.serviceMethod]
    let r : Reference Float :=
      Reference.of .controllerMethod "app.Page.show/0" .invokes target 7
    let entered := (Store.afterCalls (serviceThenTable.take 1)).graph
    (callingPage.view Graph.empty).node? target.stubId = none ∧
    ∃ n : Node, (callingPage.view entered).node? target.stubId = some n ∧
      n.kind = .serviceMethod ∧
      ∃ e₀ ∈ (ResolverOptions.standard.resolve ⟨"3"⟩ callingPage Graph.empty).edges,
        ∃ e ∈ (ResolverOptions.standard.resolve ⟨"3"⟩ callingPage entered).edges,
          e₀.id = r.edgeId target.stubId ∧ e.id = r.edgeId n.id ∧ e₀.id = e.id := by
  intro target r entered
  let n : Node :=
    { Node.stub .serviceMethod "app.Orders.total/1" "total" with kind := .serviceMethod }
  have hn : (callingPage.view entered).node? target.stubId = some n := by decide +kernel
  refine ⟨by decide +kernel, n, hn, rfl, ?_⟩
  obtain ⟨-, hpromoted⟩ := stub_promoted_in_place
    (Store.published_afterCalls (serviceThenTable.take 1)).sound (t := target)
    (by decide +kernel) hn (by decide +kernel)
  have hnone : ((callingPage.search Graph.empty (NodeId.of r.fromKind r.source)
      ResolverOptions.standard.minSimilarity).find target (r.note == some relativeNote) ∅).1 =
        none := by
    decide +kernel
  obtain ⟨e₀, he₀, e, he, hid₀, hid, hsame, -⟩ := hpromoted .standard r
    List.mem_cons_self rfl Graph.empty (fun _ => hnone) ⟨"3"⟩ ⟨"3"⟩
  exact ⟨e₀, he₀, e, he, hid₀, hid, hsame⟩

end AppAtlas
