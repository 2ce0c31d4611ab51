import AppAtlas.Proofs.Resolve.Bindings

/-!
# Resolving makes sound contributions

The references of a file are bound one after the other, and each adds an edge and the stubs that its
ends need.  What is gathered this way stays sound: every end of an edge is defined by the file or
has a stub.  So the contribution of a file can always be entered, provided its path is not empty,
its definitions are of concrete kinds and its references come with confidences.

* `ResolverOptions.resolve_spec`: what the contribution is like, for numbers of any type.
* `resolve_isSound`: with exact numbers it is sound.
-/

namespace AppAtlas

open List Std OrderedMap Consulting

variable {κ : Type}

/-! ### Edges and stubs gathered so far -/

def Reference.edgeId (r : Reference κ) (other : NodeId) : EdgeId :=
  let source := NodeId.of r.fromKind r.source
  if r.inverted then EdgeId.of other source r.edge else EdgeId.of source other r.edge

namespace Gathered

variable {U : κ → Prop} {v : View κ} {g : Gathered κ}

def Has (v : View κ) (g : Gathered κ) (id : NodeId) : Prop :=
  v.isLocal id = true ∨ ∃ n : Node, g.placeholders[id]? = some n

/-- **What is gathered is sound**: stubs and edges stand under their own identities, confidences are
as they have to be, and there are nodes for both ends of every edge. -/
structure Sound (U : κ → Prop) (v : View κ) (g : Gathered κ) : Prop where
  placeholders : ∀ (id : NodeId) (n : Node), g.placeholders[id]? = some n →
    n.id = id ∧ n.IsPlaceholder
  edges : ∀ (id : EdgeId) (e : Edge κ), g.edges[id]? = some e →
    e.id = id ∧ e.id = EdgeId.of e.source e.target e.kind ∧ U e.confidence ∧
      g.Has v e.source ∧ g.Has v e.target

/-- What is gathered tells of a reference: there is an edge with the identity that the reference
gives it, for which the line of the reference speaks, and there are nodes for both ends. -/
def Tells (v : View κ) (g : Gathered κ) (r : Reference κ) : Prop :=
  ∃ (other : NodeId) (e : Edge κ), g.edges[r.edgeId other]? = some e ∧
    g.Has v (NodeId.of r.fromKind r.source) ∧ g.Has v other ∧
    ∃ x ∈ e.evidence, x.file = v.path ∧ x.line = r.line

theorem sound_empty : Sound U v ({} : Gathered κ) where
  placeholders id n hn := by
    rw [ExtTreeMap.getElem?_empty] at hn
    cases hn
  edges id e he := by
    rw [ExtTreeMap.getElem?_empty] at he
    cases he

/-! ### One stub more -/

theorem getElem?_addPlaceholder (g : Gathered κ) (n : Node) (id : NodeId) :
    (g.addPlaceholder n).placeholders[id]? =
      if n.id = id ∧ g.placeholders[id]? = none then some n else g.placeholders[id]? := by
  show (g.placeholders.insertIfNew n.id n)[id]? = _
  rw [ExtTreeMap.getElem?_insertIfNew]
  by_cases hid : n.id = id
  · subst hid
    have hmem : n.id ∈ g.placeholders ↔ (g.placeholders[n.id]?).isSome :=
      ExtTreeMap.mem_iff_isSome_getElem?
    cases hm : g.placeholders[n.id]? <;> simp [hmem, hm]
  · simp [hid, LawfulEqCmp.compare_eq_iff_eq]

theorem Has.addPlaceholder {id : NodeId} (h : g.Has v id) (n : Node) :
    (g.addPlaceholder n).Has v id := by
  rcases h with hlocal | ⟨m, hm⟩
  · exact .inl hlocal
  · refine .inr ⟨m, ?_⟩
    rw [getElem?_addPlaceholder, hm]
    simp

theorem has_addPlaceholder (g : Gathered κ) (n : Node) : (g.addPlaceholder n).Has v n.id := by
  refine .inr ?_
  rw [getElem?_addPlaceholder]
  cases hm : g.placeholders[n.id]? with
  | none => exact ⟨n, by simp⟩
  | some m => exact ⟨m, by simp⟩

theorem Sound.addPlaceholder (h : g.Sound U v) {n : Node} (hn : n.IsPlaceholder) :
    (g.addPlaceholder n).Sound U v where
  placeholders id m hm := by
    rw [getElem?_addPlaceholder] at hm
    split at hm
    · next hid =>
      cases hm
      exact ⟨hid.1, hn⟩
    · exact h.placeholders id m hm
  edges id e he := by
    obtain ⟨hid, hends, hunit, hsource, htarget⟩ := h.edges id e he
    exact ⟨hid, hends, hunit, hsource.addPlaceholder n, htarget.addPlaceholder n⟩

theorem Tells.addPlaceholder {r : Reference κ} (h : g.Tells v r) (n : Node) :
    (g.addPlaceholder n).Tells v r := by
  obtain ⟨other, e, he, hsource, hother, hevidence⟩ := h
  exact ⟨other, e, he, hsource.addPlaceholder n, hother.addPlaceholder n, hevidence⟩

/-! ### One edge more -/

variable [Confidence κ]

theorem getElem?_addEdge (g : Gathered κ) (e : Edge κ) (id : EdgeId) : (g.addEdge e).edges[id]? =
      if e.id = id then some ((g.edges[id]?).elim e (·.merge e)) else g.edges[id]? := by
  show (g.edges.alter e.id _)[id]? = _
  rw [getElem?_alter_of]
  split
  · next hid =>
    subst hid
    cases g.edges[e.id]? <;> rfl
  · rfl

theorem max_of {x y : κ} (hx : U x) (hy : U y) : U (Confidence.max x y) := by
  rw [Confidence.max]
  split
  · exact hy
  · exact hx

theorem Sound.addEdge (h : g.Sound U v) {e : Edge κ}
    (hid : e.id = EdgeId.of e.source e.target e.kind) (hunit : U e.confidence)
    (hsource : g.Has v e.source) (htarget : g.Has v e.target) : (g.addEdge e).Sound U v where
  placeholders := h.placeholders
  edges id d hd := by
    rw [getElem?_addEdge] at hd
    split at hd
    · next heq =>
      cases hheld : g.edges[id]? with
      | none =>
        rw [hheld] at hd
        cases hd
        exact ⟨heq, hid, hunit, hsource, htarget⟩
      | some held =>
        rw [hheld] at hd
        cases hd
        -- the edge that was there stays, with the greater of both confidences
        obtain ⟨hown, hends, hheldUnit, hsource', htarget'⟩ := h.edges id held hheld
        exact ⟨hown, hends, max_of hheldUnit hunit, hsource', htarget'⟩
    · exact h.edges id d hd

theorem exists_addEdge {id : EdgeId} {d : Edge κ} (hd : g.edges[id]? = some d) (e : Edge κ) :
    ∃ d', (g.addEdge e).edges[id]? = some d' ∧ ∀ x ∈ d.evidence, x ∈ d'.evidence := by
  rw [getElem?_addEdge, hd]
  split
  · refine ⟨d.merge e, rfl, fun x hx => ?_⟩
    exact mem_sortedSet.mpr (mem_append_left _ hx)
  · exact ⟨d, rfl, fun _ hx => hx⟩

theorem exists_addEdge_self (g : Gathered κ) (e : Edge κ) :
    ∃ d, (g.addEdge e).edges[e.id]? = some d ∧ ∀ x ∈ e.evidence, x ∈ d.evidence := by
  rw [getElem?_addEdge, if_pos rfl]
  cases g.edges[e.id]? with
  | none => exact ⟨e, rfl, fun _ hx => hx⟩
  | some held =>
    exact ⟨held.merge e, rfl, fun x hx => mem_sortedSet.mpr (mem_append_right _ hx)⟩

theorem Tells.addEdge {r : Reference κ} (h : g.Tells v r) (e : Edge κ) :
    (g.addEdge e).Tells v r := by
  obtain ⟨other, d, hd, hsource, hother, x, hx, hplace⟩ := h
  obtain ⟨d', hd', hevidence⟩ := exists_addEdge hd e
  exact ⟨other, d', hd', hsource, hother, x, hevidence x hx, hplace⟩

/-! ### One reference more -/

omit [Confidence κ] in
theorem edgeOf_spec (path : String) (r : Reference κ) (b : Binding κ) :
    (edgeOf path r b).id = r.edgeId b.target ∧
      (edgeOf path r b).id = EdgeId.of (edgeOf path r b).source (edgeOf path r b).target
        (edgeOf path r b).kind ∧ (edgeOf path r b).confidence = b.confidence ∧
      (∃ x ∈ (edgeOf path r b).evidence, x.file = path ∧ x.line = r.line) ∧
      ∀ P : NodeId → Prop, P (NodeId.of r.fromKind r.source) → P b.target →
        P (edgeOf path r b).source ∧ P (edgeOf path r b).target := by
  rw [edgeOf, Reference.edgeId]
  cases r.inverted with
  | true =>
    exact ⟨rfl, rfl, rfl, ⟨_, mem_singleton_self _, rfl, rfl⟩, fun P hs ht => ⟨ht, hs⟩⟩
  | false =>
    exact ⟨rfl, rfl, rfl, ⟨_, mem_singleton_self _, rfl, rfl⟩, fun P hs ht => ⟨hs, ht⟩⟩

omit [Confidence κ] in
/-- What both ways of adding a stub keep is kept by `withEnds`. -/
theorem withEnds_of {motive : Gathered κ → Prop} {r : Reference κ} {b : Binding κ}
    (hb : b.Anchored v) (h : motive g) (hadd : ∀ g n, n.IsPlaceholder → motive g →
      motive (g.addPlaceholder n)) : motive (g.withEnds v r b) := by
  have hsource : motive (if v.isLocal (NodeId.of r.fromKind r.source) then g
      else g.addPlaceholder (Node.stub r.fromKind r.source r.source)) := by
    split
    · exact h
    · exact hadd g _ (Node.isPlaceholder_stub _ _ _) h
  rw [withEnds]
  cases hn : b.placeholder with
  | none => exact hsource
  | some n => exact hadd _ n (hb.placeholder n hn) hsource

variable {r : Reference κ} {b : Binding κ}

omit [Confidence κ] in
theorem has_withEnds (hb : b.Anchored v) :
    (g.withEnds v r b).Has v (NodeId.of r.fromKind r.source) ∧
      (g.withEnds v r b).Has v b.target := by
  have hsource : Has v (if v.isLocal (NodeId.of r.fromKind r.source) then g
      else g.addPlaceholder (Node.stub r.fromKind r.source r.source))
      (NodeId.of r.fromKind r.source) := by
    split
    · next hlocal => exact .inl hlocal
    · exact has_addPlaceholder g _
  rw [withEnds]
  cases hn : b.placeholder with
  | none =>
    refine ⟨hsource, .inl ?_⟩
    rcases hb.target with hlocal | ⟨n, hsome, -⟩
    · exact hlocal
    · exact absurd (hn.symm.trans hsome) (by simp)
  | some n =>
    refine ⟨hsource.addPlaceholder n, ?_⟩
    rcases hb.target with hlocal | ⟨m, hsome, hid⟩
    · exact .inl hlocal
    · obtain rfl : n = m := Option.some.inj (hn.symm.trans hsome)
      rw [← hid]
      exact has_addPlaceholder _ n

/-- **A bound reference keeps what is gathered sound.** -/
theorem Sound.add (h : g.Sound U v) (hb : b.Anchored v) (hunit : U b.confidence) :
    (g.add v r b).Sound U v := by
  have hends := has_withEnds (g := g) (r := r) hb
  obtain ⟨-, hid, hconfidence, -, hcarried⟩ := edgeOf_spec v.path r b
  obtain ⟨hsource, htarget⟩ := hcarried _ hends.1 hends.2
  rw [Gathered.add]
  refine Sound.addEdge ?_ hid (hconfidence ▸ hunit) hsource htarget
  exact withEnds_of hb h fun _ _ hn hg => hg.addPlaceholder hn

theorem tells_add (hb : b.Anchored v) : (g.add v r b).Tells v r := by
  have hends := has_withEnds (g := g) (r := r) hb
  obtain ⟨hid, -, -, ⟨x, hx, hplace⟩, -⟩ := edgeOf_spec v.path r b
  obtain ⟨d, hd, hevidence⟩ := exists_addEdge_self (g.withEnds v r b) (edgeOf v.path r b)
  exact ⟨b.target, d, hid ▸ hd, hends.1, hends.2, x, hevidence x hx, hplace⟩

theorem Tells.add (h : g.Tells v r) {r' : Reference κ} (hb : b.Anchored v) :
    (g.add v r' b).Tells v r := by
  rw [Gathered.add]
  exact Tells.addEdge (withEnds_of (motive := fun g => g.Tells v r) hb h
    fun _ n _ hg => hg.addPlaceholder n) _

end Gathered

/-! ### All references -/

namespace ResolverOptions

variable [Confidence κ] {U : κ → Prop} {o : ResolverOptions κ} {v : View κ} {scope : Option String}

/-- **What is gathered from all references is sound and tells of each of them.** -/
theorem ensures_gather {rs : List (Reference κ)}
    (hbind : ∀ r ∈ rs, Ensures (fun b => b.Anchored v ∧ U b.confidence) (o.bind v scope r)) :
    Ensures (fun g => g.Sound U v ∧ ∀ r ∈ rs, g.Tells v r) (o.gather v scope rs) := by
  -- along the list, what was told of the references before is still told
  have hfold : ∀ (rest done : List (Reference κ)) (start : Gathered κ),
      (∀ r ∈ rest, Ensures (fun b => b.Anchored v ∧ U b.confidence) (o.bind v scope r)) →
      start.Sound U v → (∀ r ∈ done, start.Tells v r) →
      Ensures (fun g => g.Sound U v ∧ ∀ r ∈ done ++ rest, g.Tells v r)
        (rest.foldlM (fun g r => return g.add v r (← o.bind v scope r)) start) := by
    intro rest
    induction rest with
    | nil =>
      intro done start _ hsound htells
      refine ensures_pure ⟨hsound, fun r hr => htells r ?_⟩
      rwa [append_nil] at hr
    | cons r rest ih =>
      intro done start hrest hsound htells
      rw [foldlM_cons]
      have hstep : Ensures (fun g => g.Sound U v ∧ ∀ r' ∈ done ++ [r], g.Tells v r')
          (o.bind v scope r >>= fun b => pure (start.add v r b)) := by
        refine ensures_bind (hrest r mem_cons_self) fun b hb => ?_
        refine ensures_pure ⟨hsound.add hb.1 hb.2, fun r' hr' => ?_⟩
        rcases mem_append.mp hr' with hr' | hr'
        · exact (htells r' hr').add hb.1
        · rw [mem_singleton.mp hr']
          exact Gathered.tells_add hb.1
      refine ensures_bind hstep fun g hg => ?_
      have hnext := ih (done ++ [r]) g (fun r' hr' => hrest r' (mem_cons_of_mem r hr'))
        hg.1 hg.2
      rwa [append_assoc, singleton_append] at hnext
  exact hfold rs [] {} hbind Gathered.sound_empty fun r hr => absurd hr not_mem_nil

variable {key : FileKey} {f : FindingSet κ} {g : Graph κ}

def gathered (o : ResolverOptions κ) (f : FindingSet κ) (g : Graph κ) : Gathered κ :=
  (o.gather (f.view g) f.scope f.references ∅).1

theorem nodes_resolve : (o.resolve key f g).nodes = f.nodes := rfl

theorem placeholders_resolve :
    (o.resolve key f g).placeholders = (o.gathered f g).placeholders.values := rfl

theorem carries_resolve (hsound : (o.gathered f g).Sound U (f.view g)) {id : NodeId}
    (h : (o.gathered f g).Has (f.view g) id) : (o.resolve key f g).carries id := by
  rw [Contribution.carries, Bool.or_eq_true, ← Contribution.mem_nodes_iff,
    ← Contribution.mem_placeholders_iff, nodes_resolve, placeholders_resolve]
  rcases h with hlocal | ⟨n, hn⟩
  · obtain ⟨n, hn⟩ := FindingSet.isLocal_iff.mp hlocal
    refine .inl (mem_map.mpr ⟨n, ?_, FindingSet.id_of_localNodes hn⟩)
    rw [FindingSet.nodes, Node.sorted, mem_mergeSort]
    exact mem_append_left _ (mem_values.mpr ⟨id, hn⟩)
  · exact .inr (mem_map.mpr ⟨n, mem_values.mpr ⟨id, hn⟩, (hsound.placeholders id n hn).1⟩)

omit [Confidence κ] in
theorem expectedId_of_mem_nodes (hdefinitions : ∀ d ∈ f.definitions, d.kind ≠ .stub) {n : Node}
    (hn : n ∈ f.nodes) : n.id = n.expectedId := by
  rw [FindingSet.nodes, Node.sorted, mem_mergeSort, mem_append] at hn
  rcases hn with hlocal | hmarker
  · obtain ⟨id, hid⟩ := mem_values.mp hlocal
    obtain ⟨-, hown, d, hd, hkind⟩ := FindingSet.localNodes_spec hid
    have hconcrete : n.isConcrete := by
      rw [Node.isConcrete, Node.isStub, hkind]
      simpa using hdefinitions d hd
    rw [Node.expectedId_of_isConcrete hconcrete]
    exact hown
  · obtain ⟨line, -, rfl⟩ := mem_map.mp hmarker
    exact (Node.expectedId_marker _ _ _).symm

/-- **What a file contributes**: identified nodes and stubs, edges whose ends it carries, and an
edge for each of its references. -/
theorem resolve_spec (key : FileKey) (hg : g.Sound)
    (hdefinitions : ∀ d ∈ f.definitions, d.kind ≠ .stub) (hunit : ∀ r ∈ f.references, ∀ b,
      o.Binds (fun n => n.id = NodeId.of n.kind n.signature) (f.view g) r b → U b.confidence) :
    (o.resolve key f g).Identified ∧
      (∀ e ∈ (o.resolve key f g).edges, e.id = EdgeId.of e.source e.target e.kind ∧
        U e.confidence ∧ (o.resolve key f g).carries e.source ∧
        (o.resolve key f g).carries e.target) ∧ ∀ r ∈ f.references, ∃ other,
        (o.resolve key f g).carries (NodeId.of r.fromKind r.source) ∧
        (o.resolve key f g).carries other ∧ ∃ e ∈ (o.resolve key f g).edges, e.id = r.edgeId other ∧
          ∃ x ∈ e.evidence, x.file = f.path ∧ x.line = r.line := by
  have hgather : Ensures (fun gathered => gathered.Sound U (f.view g) ∧
      ∀ r ∈ f.references, gathered.Tells (f.view g) r)
      (o.gather (f.view g) f.scope f.references) := by
    refine ensures_gather fun r hr keys => ?_
    have hbinds := ensures_bindReference (o := o) (r := r) (v := f.view g)
      (fun key n hn => FindingSet.id_of_candidate hg hn)
      (fun id n hn => FindingSet.id_of_view_node? hg hn) f.scope keys
    exact ⟨hbinds.anchored, hunit r hr _ hbinds⟩
  obtain ⟨hsound, htells⟩ : (o.gathered f g).Sound U (f.view g) ∧
    ∀ r ∈ f.references, (o.gathered f g).Tells (f.view g) r := hgather ∅
  refine ⟨⟨fun n hn => expectedId_of_mem_nodes hdefinitions hn, fun n hn => ?_⟩, fun e he => ?_,
    fun r hr => ?_⟩
  · obtain ⟨id, hid⟩ := mem_values.mp hn
    exact (hsound.placeholders id n hid).2
  · obtain ⟨id, hid⟩ := mem_values.mp he
    obtain ⟨-, hends, hconfidence, hsource, htarget⟩ := hsound.edges id e hid
    exact ⟨hends, hconfidence, carries_resolve hsound hsource, carries_resolve hsound htarget⟩
  · obtain ⟨other, e, he, hsource, hother, hevidence⟩ := htells r hr
    exact ⟨other, carries_resolve hsound hsource, carries_resolve hsound hother, e,
      mem_values.mpr ⟨_, he⟩, (hsound.edges _ e he).1, hevidence⟩

end ResolverOptions

/-- **Resolving makes sound contributions.**  Take settings that were found in order, a graph that a
store publishes, and findings with a path, definitions of concrete kinds and references that come
with confidences.  Then the contribution of the file can be entered: nodes and stubs have the
identities that their kinds and signatures give, placeholders are stubs, and every edge has the
identity that its ends give, an exact confidence, and ends that the file carries.  No reference is
lost: each is evidence for an edge between the referring definition, which the file carries even if
it does not define it, and some node. -/
theorem resolve_isSound {s : Settings Rat} (hs : s.fault? = none) {f : FindingSet Rat}
    (hpath : f.path ≠ "") (hdefinitions : ∀ d ∈ f.definitions, d.kind ≠ .stub)
    (hreferences : ∀ r ∈ f.references, Confidence.isUnit r.confidence) {st : Store Rat}
    (hst : st.Published) (key : FileKey) :
    let c := s.resolver.resolve key f st.graph
    c.IsSound ∧
      (∀ n ∈ c.nodes ++ c.placeholders, n.id = n.expectedId) ∧
      (∀ n ∈ c.placeholders, n.isStub) ∧
      (∀ e ∈ c.edges, e.id = EdgeId.of e.source e.target e.kind ∧
        c.carries e.source ∧ c.carries e.target ∧ 0 < e.confidence ∧ e.confidence ≤ 1) ∧
      ∀ r ∈ f.references, ∃ other : NodeId,
        c.carries (NodeId.of r.fromKind r.source) ∧ c.carries other ∧
        ∃ e ∈ c.edges, e.id = r.edgeId other ∧
          ∃ x ∈ e.evidence, x.file = f.path ∧ x.line = r.line := by
  intro c
  have hunits := Settings.units hs
  obtain ⟨hidentified, hedges, htells⟩ :=
    ResolverOptions.resolve_spec (U := fun x => Confidence.isUnit x = true) (o := s.resolver) key
      hst.sound hdefinitions fun r hr b hb => hb.isUnit_confidence hunits (hreferences r hr)
  refine ⟨Contribution.isSound_iff.mpr ⟨hpath, hidentified, hedges⟩, fun n hn => ?_,
    fun n hn => (hidentified.placeholders n hn).1, fun e he => ?_, htells⟩
  · rcases List.mem_append.mp hn with hn | hn
    · exact hidentified.nodes n hn
    · exact (hidentified.placeholders n hn).2
  · obtain ⟨hends, hconfidence, hsource, htarget⟩ := hedges e he
    exact ⟨hends, hsource, htarget, Confidence.isUnit_iff.mp hconfidence⟩

/-- A method that overrides one of another file.  The file does not define the method itself. -/
def overridingFile : FindingSet Rat :=
  { path := "Impl.java", artifact := .service
    definitions :=
      [{ kind := .service, signature := "app.Impl", name := "Impl", lines := .line 1 }]
    references :=
      [{ Reference.of .serviceMethod "app.Impl.run/0" .implements
          (.member (some ⟨"Base", ["app.Base"]⟩) "run" (some 0) [.serviceMethod]) 3 with
        inverted := true }] }

def overriddenMethod : List (Store.Call Rat) :=
  let method := Node.stub .serviceMethod "app.Base.run/0" "run"
  [.apply { key := ⟨"1"⟩, path := "Base.java",
            nodes := [{ method with kind := .serviceMethod }] }]

theorem overridingFile_isSound :
    (Settings.standard : Settings Rat).fault? = none ∧
      (Store.afterCalls overriddenMethod).graph.nodeList.length = 1 ∧
      (ResolverOptions.standard.resolve ⟨"2"⟩ overridingFile
        (Store.afterCalls overriddenMethod).graph).IsSound := by
  have hs : (Settings.standard : Settings Rat).fault? = none := by decide +kernel
  exact ⟨hs, by decide +kernel,
    (resolve_isSound hs (by decide +kernel) (by decide +kernel) (by decide +kernel)
      (Store.published_afterCalls overriddenMethod) ⟨"2"⟩).1⟩

end AppAtlas
