import AppAtlas.Proofs.Extract.Labels
import AppAtlas.Proofs.Resolve.Sound

/-!
# Findings are self-contained

Every reference in the findings of a file comes from a definition in the same findings.  This holds
for all contents, because extractors refer only from what they have defined, and definitions are
never taken back.

The resolver is prepared for findings of which this is not true: it carries a stub for a referring
definition that the file does not have.  For the findings of the extractors it never needs one.  All
the stubs of their contributions stand for targets.

* `Gathered.placeholder_of_add`, `ResolverOptions.ensures_placeholders`: where the stubs of a
  contribution come from, if the sources of all references are defined.
* `findings_are_self_contained`: both, for all kinds of files and for all that a Java file can say.
-/

namespace AppAtlas

open List Std OrderedMap Consulting

variable {κ : Type}

/-- **Findings are self-contained** if each reference comes from a definition among them,
definitions are of concrete kinds, and only statements refer to tables and columns. -/
structure FindingSet.SelfContained (f : FindingSet κ) : Prop where
  sources : ∀ r ∈ f.references,
    ∃ d ∈ f.definitions, d.kind = r.fromKind ∧ d.signature = r.source
  concrete : ∀ d ∈ f.definitions, d.kind ≠ .stub
  usage : ∀ r ∈ f.references,
    r.edge ∈ [EdgeKind.reads, .writes, .mentions] → r.fromKind = .statement

namespace FindingSet

variable {f f' : FindingSet κ}

theorem selfContained_iff : f.SelfContained ↔
    (∀ r ∈ f.references, f.Supports r) ∧ ∀ d ∈ f.definitions, d.kind ≠ .stub := by
  constructor
  · exact fun h => ⟨fun r hr => ⟨defines_iff.mpr (h.sources r hr), h.usage r hr⟩, h.concrete⟩
  · exact fun h => ⟨fun r hr => defines_iff.mp (h.1 r hr).source, h.2, fun r hr => (h.1 r hr).usage⟩

theorem selfContained_start (path : String) (kind : ArtifactKind) :
    (start path kind : FindingSet κ).SelfContained :=
  ⟨fun _ hr => absurd hr not_mem_nil, fun _ hd => absurd hd not_mem_nil,
    fun _ hr => absurd hr not_mem_nil⟩

/-- **A step keeps findings self-contained.** -/
theorem Step.selfContained (h : f.Step f') (hf : f.SelfContained) : f'.SelfContained := by
  rw [selfContained_iff] at hf ⊢
  have hkept : ∀ r ∈ f.references, f'.Supports r := fun r hr =>
    Grows.supports (.single h) (hf.1 r hr)
  cases h with
  | define d hd =>
    refine ⟨hkept, fun d' hd' => ?_⟩
    rcases mem_append.mp hd' with hd' | hd'
    · exact hf.2 d' hd'
    · rwa [mem_singleton.mp hd']
  | refer r hr =>
    refine ⟨fun r' hr' => ?_, hf.2⟩
    rcases mem_append.mp hr' with hr' | hr'
    · exact hkept r' hr'
    · rw [mem_singleton.mp hr']
      exact ⟨hr.source, hr.usage⟩
  | report line message => exact ⟨hkept, hf.2⟩
  | rescope scope => exact ⟨hkept, hf.2⟩

theorem Grows.selfContained (h : f.Grows f') (hf : f.SelfContained) : f'.SelfContained := by
  induction h with
  | refl => exact hf
  | tail _ hstep ih => exact hstep.selfContained ih

/-! ### Referring definitions have nodes -/

theorem isSome_collected {enter : Definition → Option Node → Option Node} {ds : List Definition}
    (henter : ∀ d held, (enter d held).isSome)
    {nodes : ExtTreeMap NodeId Node compare} {id : NodeId}
    (h : nodes[id]?.isSome ∨ ∃ d ∈ ds, NodeId.of d.kind d.signature = id) :
    (ds.foldl (fun nodes d => nodes.alter (NodeId.of d.kind d.signature) (enter d))
      nodes)[id]?.isSome := by
  induction ds generalizing nodes with
  | nil => simpa using h
  | cons d ds ih =>
    refine ih ?_
    rw [getElem?_alter_of]
    split
    · exact .inl (henter d _)
    · next hid =>
      rcases h with h | ⟨d', hd', hid'⟩
      · exact .inl h
      · rcases mem_cons.mp hd' with rfl | hd'
        · exact absurd hid' hid
        · exact .inr ⟨d', hd', hid'⟩

theorem exists_localNode {d : Definition} (h : d ∈ f.definitions) :
    ∃ n, f.localNodes[NodeId.of d.kind d.signature]? = some n := by
  rw [← Option.isSome_iff_exists, localNodes]
  refine isSome_collected (fun d held => ?_) (.inr ⟨d, h, rfl⟩)
  cases held <;> rfl

theorem SelfContained.exists_source (h : f.SelfContained) {r : Reference κ}
    (hr : r ∈ f.references) : ∃ n, f.localNodes[NodeId.of r.fromKind r.source]? = some n := by
  obtain ⟨d, hd, hkind, hsignature⟩ := h.sources r hr
  rw [← hkind, ← hsignature]
  exact exists_localNode hd

end FindingSet

/-! ### Where stubs come from -/

variable [Confidence κ]

/-- A reference from a node of the file adds no stub but that of its target. -/
theorem Gathered.placeholder_of_add {g : Gathered κ} {v : View κ} {r : Reference κ}
    {b : Binding κ} (hlocal : v.isLocal (NodeId.of r.fromKind r.source)) {id : NodeId}
    {n : Node} (h : (g.add v r b).placeholders[id]? = some n) :
    g.placeholders[id]? = some n ∨ b.placeholder = some n := by
  have h : (g.withEnds v r b).placeholders[id]? = some n := h
  rw [withEnds, if_pos hlocal] at h
  cases hb : b.placeholder with
  | none =>
    rw [hb] at h
    exact .inl h
  | some m =>
    rw [hb, Option.elim_some, getElem?_addPlaceholder] at h
    split at h
    · exact .inr h
    · exact .inl h

namespace ResolverOptions

variable {o : ResolverOptions κ} {v : View κ} {scope : Option String}

/-- A stub for the target that some reference was bound to. -/
def StandsForTarget (o : ResolverOptions κ) (v : View κ) (scope : Option String)
    (rs : List (Reference κ)) (n : Node) : Prop :=
  ∃ r ∈ rs, ∃ keys : LookupKeys, (o.bind v scope r keys).1.placeholder = some n

/-- **References from nodes of the file leave no stubs but those of their targets.** -/
theorem ensures_placeholders {rs : List (Reference κ)}
    (hlocal : ∀ r ∈ rs, v.isLocal (NodeId.of r.fromKind r.source)) :
    Ensures (fun g => ∀ (id : NodeId) (n : Node), g.placeholders[id]? = some n →
      o.StandsForTarget v scope rs n) (o.gather v scope rs) := by
  -- along the list, the stubs are those of the targets of all the references
  have hfold : ∀ (rest : List (Reference κ)) (start : Gathered κ), (∀ r ∈ rest, r ∈ rs) →
      (∀ (id : NodeId) (n : Node), start.placeholders[id]? = some n →
        o.StandsForTarget v scope rs n) →
      Ensures (fun g => ∀ (id : NodeId) (n : Node), g.placeholders[id]? = some n →
          o.StandsForTarget v scope rs n)
        (rest.foldlM (fun g r => return g.add v r (← o.bind v scope r)) start) := by
    intro rest
    induction rest with
    | nil => exact fun start _ hstart => ensures_pure hstart
    | cons r rest ih =>
      intro start hrest hstart
      have hr := hrest r mem_cons_self
      have hbound : Ensures (fun b => ∃ keys : LookupKeys, (o.bind v scope r keys).1 = b)
        (o.bind v scope r) := fun keys => ⟨keys, rfl⟩
      rw [foldlM_cons]
      refine ensures_bind (ensures_bind hbound fun b ⟨keys, hb⟩ => ensures_pure ?_)
        fun g hg => ih g (fun r' hr' => hrest r' (mem_cons_of_mem r hr')) hg
      intro id n hn
      rcases Gathered.placeholder_of_add (hlocal r hr) hn with hn | hn
      · exact hstart id n hn
      · exact ⟨r, hr, keys, hb ▸ hn⟩
  refine hfold rs {} (fun _ hr => hr) fun id n hn => ?_
  rw [ExtTreeMap.getElem?_empty] at hn
  cases hn

end ResolverOptions

/-- **Resolving needs no stub for a referring definition**, whatever the graph: the contribution has
nodes for all of them, and each of its stubs stands for the target of a reference. -/
def FindingSet.ResolvesWithoutSources (f : FindingSet κ) : Prop :=
  ∀ (o : ResolverOptions κ) (key : FileKey) (g : Graph κ),
    (∀ r ∈ f.references, ∃ n ∈ (o.resolve key f g).nodes, n.id = NodeId.of r.fromKind r.source) ∧
    ∀ n ∈ (o.resolve key f g).placeholders, o.StandsForTarget (f.view g) f.scope f.references n

theorem FindingSet.SelfContained.resolvesWithoutSources {f : FindingSet κ} (h : f.SelfContained) :
    f.ResolvesWithoutSources := by
  intro o key g
  constructor
  · intro r hr
    obtain ⟨n, hn⟩ := h.exists_source hr
    refine ⟨n, ?_, FindingSet.id_of_localNodes hn⟩
    rw [ResolverOptions.nodes_resolve, FindingSet.nodes, Node.sorted, mem_mergeSort]
    exact mem_append_left _ (mem_values.mpr ⟨_, hn⟩)
  · intro n hn
    rw [ResolverOptions.placeholders_resolve] at hn
    obtain ⟨id, hid⟩ := mem_values.mp hn
    have hlocal : ∀ r ∈ f.references, (f.view g).isLocal (NodeId.of r.fromKind r.source) :=
      fun r hr => FindingSet.isLocal_iff.mpr (h.exists_source hr)
    exact ResolverOptions.ensures_placeholders hlocal ∅ id n hid

/-- **All extractors make self-contained findings.**  Take the file of any kind at a path, with any
content; or anything that a Java file can say to the reader of controllers, services or mappers.
The findings have the normalised path, each reference comes from a definition among them of the same
kind and signature, definitions are of concrete kinds, and only statements refer to tables and
columns.  So resolving them never needs a stub for a referring definition. -/
theorem findings_are_self_contained (options : Extract.Options κ) (path : String) :
    (∀ (kind : ArtifactKind) (content : String),
      let f := Extract.findings options kind path content
      f.path = FilePath.normalize path ∧ f.SelfContained ∧ f.ResolvesWithoutSources) ∧
    ∀ profile ∈ [Extract.Profile.controller, .service, .mapper], ∀ s : Java.Source,
      let f := Extract.sourceFindings options profile path s
      f.path = FilePath.normalize path ∧ f.SelfContained ∧ f.ResolvesWithoutSources := by
  have hgrown : ∀ {kind : ArtifactKind} {f : FindingSet κ}, (FindingSet.start path kind).Grows f →
      f.path = FilePath.normalize path ∧ f.SelfContained ∧ f.ResolvesWithoutSources := by
    intro kind f h
    have hself := h.selfContained (FindingSet.selfContained_start path kind)
    exact ⟨h.labelled.path, hself, hself.resolvesWithoutSources⟩
  refine ⟨fun kind content => hgrown (Extract.grows_findings options kind path content),
    fun profile hprofile s => ?_⟩
  exact hgrown (Extract.grows_sourceFindings options (Extract.Profile.concrete_of_mem hprofile) path s)

def selectingMapper : Java.Source :=
  let method : Java.Method :=
    { name := "all", params := [], isConstructor := false, lines := .line 3, calls := [], sql := []
      annotations := [⟨"Select", ExtTreeMap.ofList [("value", ["SELECT id FROM orders"])]⟩] }
  { package := some "app"
    types :=
      [{ name := "Orders", fullName := "app.Orders", isInterface := true, annotations := []
         parents := [], interfaces := [], fields := ∅, constants := ∅, methods := [method]
         lines := .line 2 }] }

theorem selectingMapper_self_contained :
    let f : FindingSet Rat := Extract.sourceFindings .standard .mapper "Orders.java" selectingMapper
    f.references.map (fun r => (r.fromKind, r.edge)) =
        [(.statement, .reads), (.statement, .mentions), (.mapperMethod, .executes)] ∧
      f.SelfContained ∧ f.ResolvesWithoutSources :=
  ⟨by decide +kernel, ((findings_are_self_contained .standard "Orders.java").2 .mapper (by simp)
    selectingMapper).2⟩

end AppAtlas
