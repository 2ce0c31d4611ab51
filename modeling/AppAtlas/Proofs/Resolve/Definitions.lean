import AppAtlas.Proofs.Resolve.Lookups

/-!
# Graphs with the same definitions

References are resolved against definitions only: against the concrete nodes of a graph, the paths
that define them and perhaps the versions that introduced them.  Edges and placeholders play no
part. So a file contributes the same against two graphs that agree in their definitions, and it does
not matter against which of the graphs of a batch it is resolved.

* `ResolverOptions.resolve_eq_of_seesSame`: a file that sees the same in two graphs
  contributes the same against both.
* `Graph.Alike`: two graphs agree in all definitions, so they look the same to every file.
-/

namespace AppAtlas

open Std OrderedMap

variable {κ : Type}

/-! ### One identity -/

/-- Two graphs agree in the definition of an identity. -/
structure Graph.SameAt (g g' : Graph κ) (id : NodeId) : Prop where
  node : ∀ n : Node, n.isConcrete → (g.nodes[id]? = some n ↔ g'.nodes[id]? = some n)
  definers : g.definersOf id = g'.definersOf id

def Contributions.Identified (t : Contributions κ) : Prop :=
  ∀ (p : String) (c : Contribution κ), t[p]? = some c → c.Identified

namespace Contributions

variable {t t' : Contributions κ} {id : NodeId} {n : Node}

theorem head?_defining_of_concrete (ht : t.Identified) (hn : t.node? id = some n)
    (hconcrete : n.isConcrete) : (t.defining id).values.head? = some n := by
  rw [node?, Option.or_eq_some_iff] at hn
  rcases hn with hn | ⟨-, hn⟩
  · exact hn
  · obtain ⟨p, c, hc, hp, -⟩ := head?_collect_eq_some_iff.mp hn
    have hstub := ((ht p c hc).placeholders n (Contribution.mem_of_placeholder? hp)).1
    rw [Node.isConcrete, hstub] at hconcrete
    cases hconcrete

theorem exists_definer_of_concrete (ht : t.Identified) (hn : t.node? id = some n)
    (hconcrete : n.isConcrete) :
    ∃ (p : String) (c : Contribution κ), t[p]? = some c ∧ c.node? id = some n := by
  obtain ⟨p, c, hc, hp, -⟩ :=
    head?_collect_eq_some_iff.mp (head?_defining_of_concrete ht hn hconcrete)
  exact ⟨p, c, hc, hp⟩

theorem exists_node?_of_definer {p : String} {c : Contribution κ} (hc : t[p]? = some c)
    (hn : c.node? id = some n) :
    ∃ (m : Node) (q : String) (d : Contribution κ), t.node? id = some m ∧ t[q]? = some d ∧
      d.node? id = some m := by
  cases hhead : (t.defining id).values.head? with
  | none =>
    have := head?_collect_eq_none_iff.mp hhead p c hc
    rw [hn] at this
    cases this
  | some m =>
    obtain ⟨q, d, hd, hm, -⟩ := head?_collect_eq_some_iff.mp hhead
    exact ⟨m, q, d, by rw [node?, hhead, Option.some_or], hd, hm⟩

theorem node?_iff_of_defining_eq (ht : t.Identified) (ht' : t'.Identified)
    (h : t.defining id = t'.defining id) (hconcrete : n.isConcrete) :
    t.node? id = some n ↔ t'.node? id = some n := by
  constructor
  · intro hn
    have hhead := head?_defining_of_concrete ht hn hconcrete
    rw [h] at hhead
    rw [node?, hhead, Option.some_or]
  · intro hn
    have hhead := head?_defining_of_concrete ht' hn hconcrete
    rw [← h] at hhead
    rw [node?, hhead, Option.some_or]

end Contributions

theorem Graph.sameAt_of_defining_eq [Confidence κ] {g g' : Graph κ} {t t' : Contributions κ}
    {id : NodeId} (hg : g.Shows t) (hg' : g'.Shows t') (ht : t.Identified) (ht' : t'.Identified)
    (h : t.defining id = t'.defining id) : g.SameAt g' id where
  node n hconcrete := by
    rw [hg.nodes, hg'.nodes]
    exact Contributions.node?_iff_of_defining_eq ht ht' h hconcrete
  definers := by
    rw [definersOf, definersOf, ExtTreeMap.get?_eq_getElem?, ExtTreeMap.get?_eq_getElem?,
      hg.definers, hg'.definers, Contributions.definers?, Contributions.definers?, h]

namespace Graph.SameAt

variable {g g' : Graph κ} {id : NodeId}

theorem symm (h : g.SameAt g' id) : g'.SameAt g id :=
  ⟨fun n hn => (h.node n hn).symm, h.definers.symm⟩

theorem trans {g'' : Graph κ} (h : g.SameAt g' id) (h' : g'.SameAt g'' id) : g.SameAt g'' id :=
  ⟨fun n hn => (h.node n hn).trans (h'.node n hn), h.definers.trans h'.definers⟩

theorem concreteAt_eq (h : g.SameAt g' id) : g.concreteAt id = g'.concreteAt id := by
  have hone : ∀ {g₁ g₂ : Graph κ}, g₁.SameAt g₂ id → g₁.concreteAt id →
      g₂.concreteAt id := by
    intro g₁ g₂ h₁ hc
    rw [concreteAt, Option.any_eq_true] at hc ⊢
    obtain ⟨n, hn, hconcrete⟩ := hc
    exact ⟨n, (h₁.node n hconcrete).mp hn, hconcrete⟩
  rw [Bool.eq_iff_iff]
  exact ⟨hone h, hone h.symm⟩

theorem sees_eq {n : Node} (h : g.SameAt g' n.id) (f : FindingSet κ) :
    (f.view g).sees n = (f.view g').sees n := by
  show (n.isConcrete && (g.definersOf n.id).any _) = (n.isConcrete && (g'.definersOf n.id).any _)
  rw [h.definers]
  rfl

theorem mem_visible {f : FindingSet κ} {key : LookupKey} {n : Node} (h : g.SameAt g' n.id)
    (hg : g.Sound) (hg' : g'.Sound) (hn : n ∈ f.visible g key) : n ∈ f.visible g' key := by
  obtain ⟨hnode, hkey, hlocal, hsees⟩ := (FindingSet.mem_visible hg).mp hn
  have hconcrete := FindingSet.isConcrete_of_sees hsees
  rw [h.sees_eq f] at hsees
  exact (FindingSet.mem_visible hg').mpr ⟨(h.node n hconcrete).mp hnode, hkey, hlocal, hsees⟩

theorem node?_eq (h : g.SameAt g' id) (hg : g.Sound) (hg' : g'.Sound) (f : FindingSet κ) :
    (f.view g').node? id = (f.view g).node? id := by
  have hone : ∀ {g₁ g₂ : Graph κ}, g₁.Sound → g₁.SameAt g₂ id → ∀ n,
      (g₁.nodes[id]?).filter (f.view g₁).sees = some n →
        (g₂.nodes[id]?).filter (f.view g₂).sees = some n := by
    intro g₁ g₂ hg₁ hsame n hn
    obtain ⟨hnode, hsees⟩ := Option.filter_eq_some_iff.mp hn
    have hid : n.id = id := (hg₁ id n hnode).1
    refine Option.filter_eq_some_iff.mpr
      ⟨(hsame.node n (FindingSet.isConcrete_of_sees hsees)).mp hnode, ?_⟩
    rw [← hid] at hsame
    rw [← hsame.sees_eq f]
    exact hsees
  cases hlocal : f.localNodes[id]? with
  | some n => rw [FindingSet.node?_of_local hlocal, FindingSet.node?_of_local hlocal]
  | none =>
    rw [FindingSet.node?_of_not_local hlocal, FindingSet.node?_of_not_local hlocal]
    exact Option.ext fun n => ⟨hone hg' h.symm n, hone hg h n⟩

end Graph.SameAt

/-! ### What a file sees -/

/-- **Two graphs look the same to a file**: it sees the same nodes in both, of the same versions if
these are used. -/
structure FindingSet.SeesSame (f : FindingSet κ) (tieBreak : TieBreak) (g g' : Graph κ) :
    Prop where
  node? : ∀ id : NodeId, (f.view g').node? id = (f.view g).node? id
  introduced : tieBreak = .recency → ∀ n : Node, (f.view g).isLocal n.id = false →
    (f.view g).node? n.id = some n → g.introduced? n.id = g'.introduced? n.id

namespace FindingSet.SeesSame

variable {f : FindingSet κ} {tieBreak : TieBreak} {g g' : Graph κ}

theorem agreeUnder (h : f.SeesSame tieBreak g g') (hg : g.Sound) (hg' : g'.Sound)
    (key : LookupKey) : f.AgreeUnder tieBreak g g' key where
  nodes n := by
    have hnode := h.node? n.id
    rw [mem_visible_iff hg, mem_visible_iff hg', hnode]
    rfl
  introduced ht n hn := by
    obtain ⟨-, hlocal, hseen⟩ := (mem_visible_iff hg).mp hn
    exact h.introduced ht n hlocal hseen

theorem sameVersion (h : f.SeesSame tieBreak g g') (hg : g.Sound) {id : NodeId} {n : Node}
    (hn : (f.view g).node? id = some n) : f.SameVersion tieBreak g g' n := by
  cases hlocal : f.localNodes[id]? with
  | some m => exact sameVersion_of_local_node? hlocal hn
  | none =>
    have hnode := (Option.filter_eq_some_iff.mp ((node?_of_not_local hlocal).symm.trans hn)).1
    obtain rfl := (hg id n hnode).1
    intro ht
    show (if _ then _ else (g.introduced? n.id).getD 0) =
      if _ then _ else (g'.introduced? n.id).getD 0
    rw [h.introduced ht n (isLocal_eq_false_iff.mpr hlocal) hn]
    rfl

end FindingSet.SeesSame

/-- **A file contributes the same against graphs that look the same to it.** -/
theorem ResolverOptions.resolve_eq_of_seesSame [Confidence κ] {o : ResolverOptions κ}
    {f : FindingSet κ} {g g' : Graph κ} (h : f.SeesSame o.tieBreak g g') (hg : g.Sound)
    (hg' : g'.Sound) (key : FileKey) : o.resolve key f g' = o.resolve key f g :=
  resolve_eq_of_probes hg hg' o key f
    (fun _ _ _ => ⟨fun _ _ => h.node? _, fun _ _ _ hn => h.sameVersion hg hn⟩)
    (fun k _ => h.agreeUnder hg hg' k)

/-! ### All identities -/

/-- Contributions define the same if each path defines the same nodes. -/
def Contributions.SameDefinitions (t t' : Contributions κ) : Prop :=
  ∀ p : String, t[p]?.map (·.nodes) = t'[p]?.map (·.nodes)

theorem Contributions.SameDefinitions.defining_eq {t t' : Contributions κ}
    (h : t.SameDefinitions t') (id : NodeId) : t.defining id = t'.defining id := by
  refine collect_congr fun p => ?_
  have hp := h p
  cases hc : t[p]? with
  | none =>
    rw [hc, Option.map_none, eq_comm, Option.map_eq_none_iff] at hp
    rw [hp]
  | some c =>
    rw [hc, Option.map_some, eq_comm, Option.map_eq_some_iff] at hp
    obtain ⟨d, hd, hnodes⟩ := hp
    rw [hd, Option.bind_some, Option.bind_some, Contribution.node?, Contribution.node?, hnodes]

/-- **Two graphs agree in all definitions**, and in the versions that introduced them if these are
used. -/
structure Graph.Alike (tieBreak : TieBreak) (g g' : Graph κ) : Prop where
  same : ∀ id : NodeId, g.SameAt g' id
  introduced : tieBreak = .recency → ∀ id : NodeId, g.concreteAt id →
    g.introduced? id = g'.introduced? id

namespace Graph.Alike

variable {tieBreak : TieBreak} {g g' : Graph κ}

theorem refl (tieBreak : TieBreak) (g : Graph κ) : g.Alike tieBreak g :=
  ⟨fun _ => ⟨fun _ _ => Iff.rfl, rfl⟩, fun _ _ _ => rfl⟩

theorem trans {g'' : Graph κ} (h : g.Alike tieBreak g') (h' : g'.Alike tieBreak g'') :
    g.Alike tieBreak g'' where
  same id := (h.same id).trans (h'.same id)
  introduced ht id hc := by
    rw [h.introduced ht id hc, h'.introduced ht id ((h.same id).concreteAt_eq ▸ hc)]

theorem seesSame (h : g.Alike tieBreak g') (hg : g.Sound) (hg' : g'.Sound) (f : FindingSet κ) :
    f.SeesSame tieBreak g g' where
  node? id := (h.same id).node?_eq hg hg' f
  introduced ht n hlocal hn := h.introduced ht n.id (FindingSet.concreteAt_of_node? hlocal hn)

theorem agreeUnder (h : g.Alike tieBreak g') (hg : g.Sound) (hg' : g'.Sound) (f : FindingSet κ)
    (key : LookupKey) : f.AgreeUnder tieBreak g g' key :=
  (h.seesSame hg hg' f).agreeUnder hg hg' key

end Graph.Alike

/-- **A file contributes the same against graphs that agree in all definitions.** -/
theorem ResolverOptions.resolve_eq_of_alike [Confidence κ] {o : ResolverOptions κ} {g g' : Graph κ}
    (h : g.Alike o.tieBreak g') (hg : g.Sound) (hg' : g'.Sound) (key : FileKey)
    (f : FindingSet κ) : o.resolve key f g' = o.resolve key f g :=
  resolve_eq_of_seesSame (h.seesSame hg hg' f) hg hg' key

end AppAtlas
