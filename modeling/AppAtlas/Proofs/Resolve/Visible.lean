import AppAtlas.Proofs.Resolve.Names
import AppAtlas.Proofs.Store.Published
import AppAtlas.Resolve.Resolver
import Mathlib.Data.List.Sort

/-!
# What a file sees of a graph

A file sees the concrete nodes of a graph that other files define.  Two graphs look the same to it
under a key if it sees the same nodes there.  Then a search of that key finds the same in both, and
so does a question for an identity that stands under the key.

* `FindingSet.visible`, `FindingSet.AgreeUnder`: the nodes seen under a key, and two graphs that
  look the same there.
* `FindingSet.AgreeUnder.candidates_eq`: a search of the key finds the same.
* `FindingSet.AgreeUnder.node?_eq`: a covered identity has the same node.
-/

namespace AppAtlas

open List Std OrderedMap

variable {κ : Type}

theorem Node.expectedId_of_isConcrete {n : Node} (h : n.isConcrete) :
    n.expectedId = NodeId.of n.kind n.signature := by
  have hstub : n.isStub = false := by simpa [Node.isConcrete] using h
  rw [Node.expectedId, hstub]
  rfl

theorem Node.isConcrete_of_mem_lookupKeys {n : Node} {key : LookupKey} (h : key ∈ n.lookupKeys) :
    n.isConcrete := by
  rw [Node.lookupKeys] at h
  split at h
  · assumption
  · cases h

/-- Two identities have the same number only if they are the same. -/
def NodeId.Apart (x y : NodeKind × String) : Prop :=
  NodeId.of x.1 x.2 = NodeId.of y.1 y.2 → x.1.space = y.1.space ∧ x.2 = y.2

instance (x y : NodeKind × String) : Decidable (NodeId.Apart x y) :=
  inferInstanceAs (Decidable (_ → _))

def Graph.ApartFrom (g : Graph κ) (probe : NodeKind × String) : Prop :=
  ∀ (id : NodeId) (n : Node), g.nodes[id]? = some n → n.isConcrete →
    NodeId.Apart (n.kind, n.signature) probe

namespace FindingSet

def view (f : FindingSet κ) (g : Graph κ) : View κ :=
  { graph := g, path := f.path, localNodes := f.localNodes }

/-- The nodes under a key that other files define and the file itself does not, by identity. -/
def visible (f : FindingSet κ) (g : Graph κ) (key : LookupKey) : List Node :=
  (g.lookup key).filter fun n => !(f.view g).isLocal n.id && (f.view g).sees n

/-- **Two graphs look the same to a file under a key**: the visible nodes are the same, and the
versions that introduced them if these are used. -/
structure AgreeUnder (f : FindingSet κ) (tieBreak : TieBreak) (g g' : Graph κ) (key : LookupKey) :
    Prop where
  nodes : ∀ n : Node, n ∈ f.visible g key ↔ n ∈ f.visible g' key
  introduced : tieBreak = .recency → ∀ n ∈ f.visible g key,
    g.introduced? n.id = g'.introduced? n.id

variable {f : FindingSet κ} {g g' : Graph κ} {tieBreak : TieBreak} {key : LookupKey}

variable {n : Node} {id : NodeId}

theorem mem_visible (hg : g.Sound) : n ∈ f.visible g key ↔
    g.nodes[n.id]? = some n ∧ key ∈ n.lookupKeys ∧ (f.view g).isLocal n.id = false ∧
      (f.view g).sees n := by
  rw [visible, g.lookup_eq_filter, Graph.nodeList, mem_filter, mem_filter, mem_values,
    contains_iff_mem, Bool.and_eq_true, Bool.not_eq_true', and_assoc]
  refine and_congr_left fun _ => ⟨?_, fun h => ⟨n.id, h⟩⟩
  rintro ⟨id, hid⟩
  rw [(hg id n hid).1]
  exact hid

theorem pairwise_visible (hg : g.Sound) (f : FindingSet κ) (key : LookupKey) :
    (f.visible g key).Pairwise fun a b => compare a.id b.id = .lt := by
  rw [visible, g.lookup_eq_filter]
  exact ((pairwise_values fun id n hn => (hg id n hn).1).filter _).filter _

theorem AgreeUnder.trans {g'' : Graph κ} (h : f.AgreeUnder tieBreak g g' key)
    (h' : f.AgreeUnder tieBreak g' g'' key) : f.AgreeUnder tieBreak g g'' key where
  nodes n := (h.nodes n).trans (h'.nodes n)
  introduced ht n hn := by
    rw [h.introduced ht n hn, h'.introduced ht n ((h.nodes n).mp hn)]

theorem candidates_eq (g : Graph κ) : (f.view g).candidates key =
    Node.sorted (f.localNodes.values.filter (·.lookupKeys.contains key) ++ f.visible g key) := rfl

theorem AgreeUnder.candidates_eq (h : f.AgreeUnder tieBreak g g' key) (hg : g.Sound)
    (hg' : g'.Sound) : (f.view g').candidates key = (f.view g).candidates key := by
  rw [FindingSet.candidates_eq, FindingSet.candidates_eq,
    eq_of_pairwise_key (pairwise_visible hg f key) (pairwise_visible hg' f key) h.nodes]

theorem forall_collected {P : NodeId → Node → Prop}
    {enter : Definition → Option Node → Option Node} {ds : List Definition}
    (henter : ∀ d ∈ ds, ∀ held n, (∀ m, held = some m → P (NodeId.of d.kind d.signature) m) →
        enter d held = some n → P (NodeId.of d.kind d.signature) n)
    {nodes : ExtTreeMap NodeId Node compare}
    (hnodes : ∀ id n, nodes[id]? = some n → P id n) (id : NodeId) (n : Node)
    (h : (ds.foldl (fun nodes d => nodes.alter (NodeId.of d.kind d.signature) (enter d))
      nodes)[id]? = some n) : P id n := by
  induction ds generalizing nodes with
  | nil => exact hnodes id n h
  | cons d ds ih =>
    refine ih (fun d' hd' => henter d' (mem_cons_of_mem d hd')) (fun id n hn => ?_) h
    rw [getElem?_alter_of] at hn
    split at hn
    · next hid => exact hid ▸ henter d mem_cons_self _ n (fun m hm => hnodes _ m hm) hn
    · exact hnodes id n hn

/-- A file's own nodes stand under their own identities, which their kinds and signatures give, and
the kinds are those of definitions. -/
theorem localNodes_spec (h : f.localNodes[id]? = some n) :
    n.id = id ∧ n.id = NodeId.of n.kind n.signature ∧ ∃ d ∈ f.definitions, n.kind = d.kind := by
  rw [localNodes] at h
  refine forall_collected (P := fun id n => n.id = id ∧ n.id = NodeId.of n.kind n.signature ∧
    ∃ d ∈ f.definitions, n.kind = d.kind) (fun d hd held n hheld hn => ?_) (fun id n hn => ?_) id n h
  · cases held with
    | none =>
      cases hn
      exact ⟨rfl, rfl, d, hd, rfl⟩
    | some m =>
      cases hn
      exact hheld m rfl
  · rw [ExtTreeMap.getElem?_empty] at hn
    cases hn

theorem id_of_localNodes (h : f.localNodes[id]? = some n) : n.id = id :=
  (localNodes_spec h).1

theorem isLocal_iff : (f.view g).isLocal id ↔ ∃ n, f.localNodes[id]? = some n := by
  show f.localNodes.contains id ↔ _
  rw [ExtTreeMap.contains_eq_isSome_getElem?, Option.isSome_iff_exists]

theorem node?_of_local (h : f.localNodes[id]? = some n) :
    (f.view g).node? id = if n.isConcrete then some n else none := by
  have hget : f.localNodes.get? id = some n := h
  simp only [View.node?, view, hget]

theorem node?_of_not_local (h : f.localNodes[id]? = none) :
    (f.view g).node? id = (g.nodes[id]?).filter (f.view g).sees := by
  have hget : f.localNodes.get? id = none := h
  simp only [View.node?, view, hget]
  rfl

theorem isConcrete_of_sees (h : (f.view g).sees n) : n.isConcrete := by
  rw [View.sees, Bool.and_eq_true] at h
  exact h.1

theorem isLocal_eq_false_iff : (f.view g).isLocal id = false ↔ f.localNodes[id]? = none := by
  rw [← Bool.not_eq_true, isLocal_iff, Option.eq_none_iff_forall_ne_some, not_exists]

theorem node?_eq_some_iff_of_not_local (h : (f.view g).isLocal n.id = false) :
    (f.view g).node? n.id = some n ↔ g.nodes[n.id]? = some n ∧ (f.view g).sees n := by
  rw [node?_of_not_local (isLocal_eq_false_iff.mp h), Option.filter_eq_some_iff]

theorem concreteAt_of_node? (hlocal : (f.view g).isLocal n.id = false)
    (hn : (f.view g).node? n.id = some n) : g.concreteAt n.id := by
  obtain ⟨hnode, hsees⟩ := (node?_eq_some_iff_of_not_local hlocal).mp hn
  rw [Graph.concreteAt, hnode]
  exact isConcrete_of_sees hsees

/-- What a file sees is its own concrete node of an identity, or else what it sees in the graph. -/
theorem node?_eq_some_iff : (f.view g).node? n.id = some n ↔
    (f.localNodes[n.id]? = some n ∧ n.isConcrete) ∨
      ((f.view g).isLocal n.id = false ∧ g.nodes[n.id]? = some n ∧ (f.view g).sees n) := by
  cases hlocal : f.localNodes[n.id]? with
  | some m =>
    rw [node?_of_local hlocal, isLocal_eq_false_iff, hlocal]
    constructor
    · intro h
      split at h
      · next hconcrete =>
        cases h
        exact .inl ⟨rfl, hconcrete⟩
      · cases h
    · rintro (⟨hm, hconcrete⟩ | ⟨hno, -⟩)
      · cases hm
        rw [if_pos hconcrete]
      · cases hno
  | none =>
    have hnot : (f.view g).isLocal n.id = false := isLocal_eq_false_iff.mpr hlocal
    rw [node?_eq_some_iff_of_not_local hnot, hnot]
    simp

theorem mem_visible_iff (hg : g.Sound) : n ∈ f.visible g key ↔
    key ∈ n.lookupKeys ∧ (f.view g).isLocal n.id = false ∧ (f.view g).node? n.id = some n := by
  rw [mem_visible hg]
  constructor
  · rintro ⟨hnode, hkey, hlocal, hsees⟩
    exact ⟨hkey, hlocal, (node?_eq_some_iff_of_not_local hlocal).mpr ⟨hnode, hsees⟩⟩
  · rintro ⟨hkey, hlocal, hseen⟩
    obtain ⟨hnode, hsees⟩ := (node?_eq_some_iff_of_not_local hlocal).mp hseen
    exact ⟨hnode, hkey, hlocal, hsees⟩

theorem mem_candidates_iff (hg : g.Sound) :
    n ∈ (f.view g).candidates key ↔ key ∈ n.lookupKeys ∧ (f.view g).node? n.id = some n := by
  rw [candidates_eq, Node.sorted, mem_mergeSort, mem_append, mem_filter,
    mem_visible hg, contains_iff_mem, node?_eq_some_iff, mem_values]
  constructor
  · rintro (⟨⟨id, hid⟩, hkey⟩ | ⟨hnode, hkey, hlocal, hsees⟩)
    · rw [id_of_localNodes hid]
      exact ⟨hkey, .inl ⟨hid, Node.isConcrete_of_mem_lookupKeys hkey⟩⟩
    · exact ⟨hkey, .inr ⟨hlocal, hnode, hsees⟩⟩
  · rintro ⟨hkey, ⟨hid, -⟩ | ⟨hlocal, hnode, hsees⟩⟩
    · exact .inl ⟨⟨n.id, hid⟩, hkey⟩
    · exact .inr ⟨hnode, hkey, hlocal, hsees⟩

def SameVersion (f : FindingSet κ) (tieBreak : TieBreak) (g g' : Graph κ) (n : Node) : Prop :=
  tieBreak = .recency → (f.view g).introduced n.id = (f.view g').introduced n.id

theorem sameVersion_of_local (h : (f.view g).isLocal n.id) : f.SameVersion tieBreak g g' n := by
  intro _
  have h' : (f.view g').isLocal n.id := h
  rw [View.introduced, View.introduced, if_pos h, if_pos h']

theorem sameVersion_of_local_node? {m : Node} (hlocal : f.localNodes[id]? = some m)
    (hn : (f.view g).node? id = some n) : f.SameVersion tieBreak g g' n := by
  rw [node?_of_local hlocal] at hn
  split at hn
  · obtain rfl := Option.some.inj hn
    refine sameVersion_of_local (isLocal_iff.mpr ⟨m, ?_⟩)
    rw [id_of_localNodes hlocal]
    exact hlocal
  · cases hn

theorem AgreeUnder.sameVersion_of_visible (h : f.AgreeUnder tieBreak g g' key)
    (hn : n ∈ f.visible g key) : f.SameVersion tieBreak g g' n := by
  intro ht
  show (if _ then _ else (g.introduced? n.id).getD 0) =
    if _ then _ else (g'.introduced? n.id).getD 0
  rw [h.introduced ht n hn]
  rfl

theorem AgreeUnder.sameVersion_of_candidate (h : f.AgreeUnder tieBreak g g' key)
    (hn : n ∈ (f.view g).candidates key) : f.SameVersion tieBreak g g' n := by
  rw [FindingSet.candidates_eq, Node.sorted, mem_mergeSort, mem_append,
    mem_filter] at hn
  rcases hn with ⟨hn, -⟩ | hn
  · obtain ⟨id, hid⟩ := mem_values.mp hn
    refine sameVersion_of_local (isLocal_iff.mpr ⟨n, ?_⟩)
    rw [id_of_localNodes hid]
    exact hid
  · exact h.sameVersion_of_visible hn

/-! ### Probes -/

section Probes

variable {probe : NodeKind × String}

/-- **What has the identity asked for stands under the key.** -/
theorem mem_visible_of_node? (hg : g.Sound) (hapart : g.ApartFrom probe)
    (hkey : key ∈ probe.1.signatureKeys probe.2) {n : Node}
    (hlocal : f.localNodes[NodeId.of probe.1 probe.2]? = none)
    (hn : (f.view g).node? (NodeId.of probe.1 probe.2) = some n) : n ∈ f.visible g key := by
  rw [node?_of_not_local hlocal] at hn
  obtain ⟨hnode, hsees⟩ := Option.filter_eq_some_iff.mp hn
  obtain ⟨hid, hexpected⟩ := hg _ n hnode
  have hconcrete := isConcrete_of_sees hsees
  have hof := Node.expectedId_of_isConcrete hconcrete
  obtain ⟨hspace, hsignature⟩ := hapart _ n hnode hconcrete
    (by rw [← hof, ← hexpected, hid])
  refine (mem_visible hg).mpr ⟨by rw [hid]; exact hnode, ?_, ?_, hsees⟩
  · rw [Node.lookupKeys, if_pos hconcrete]
    refine mem_append_left _ (mem_cons_of_mem _ ?_)
    have hspace : n.kind.space = probe.1.space := hspace
    have hsignature : n.signature = probe.2 := hsignature
    rw [NodeKind.signatureKeys_congr hspace, hsignature]
    exact hkey
  · rw [hid]
    exact isLocal_eq_false_iff.mpr hlocal

theorem AgreeUnder.node?_eq (h : f.AgreeUnder tieBreak g g' key) (hg : g.Sound) (hg' : g'.Sound)
    (hapart : g.ApartFrom probe) (hapart' : g'.ApartFrom probe)
    (hkey : key ∈ probe.1.signatureKeys probe.2) : (f.view g').node? (NodeId.of probe.1 probe.2) =
      (f.view g).node? (NodeId.of probe.1 probe.2) := by
  cases hlocal : f.localNodes[NodeId.of probe.1 probe.2]? with
  | some n => rw [node?_of_local hlocal, node?_of_local hlocal]
  | none =>
    -- what is seen in one graph is visible under the key, so it is seen in the other
    have hone : ∀ g₁ g₂, g₁.Sound → g₂.Sound → g₁.ApartFrom probe →
        (∀ n, n ∈ f.visible g₁ key → n ∈ f.visible g₂ key) → ∀ n,
        (f.view g₁).node? (NodeId.of probe.1 probe.2) = some n →
          (f.view g₂).node? (NodeId.of probe.1 probe.2) = some n := by
      intro g₁ g₂ hg₁ hg₂ hapart₁ hsub n hn
      have hvisible := hsub n (mem_visible_of_node? hg₁ hapart₁ hkey hlocal hn)
      obtain ⟨hnode, -, -, hsees⟩ := (mem_visible hg₂).mp hvisible
      rw [node?_of_not_local hlocal] at hn ⊢
      have hid : n.id = NodeId.of probe.1 probe.2 := (hg₁ _ n (Option.filter_eq_some_iff.mp hn).1).1
      rw [hid] at hnode
      exact Option.filter_eq_some_iff.mpr ⟨hnode, hsees⟩
    refine Option.ext fun n => ⟨?_, ?_⟩
    · exact hone g' g hg' hg hapart' (fun n => (h.nodes n).mpr) n
    · exact hone g g' hg hg' hapart (fun n => (h.nodes n).mp) n

theorem AgreeUnder.sameVersion_of_node? (h : f.AgreeUnder tieBreak g g' key) (hg : g.Sound)
    (hapart : g.ApartFrom probe) (hkey : key ∈ probe.1.signatureKeys probe.2) {n : Node}
    (hn : (f.view g).node? (NodeId.of probe.1 probe.2) = some n) :
    f.SameVersion tieBreak g g' n := by
  cases hlocal : f.localNodes[NodeId.of probe.1 probe.2]? with
  | none => exact h.sameVersion_of_visible (mem_visible_of_node? hg hapart hkey hlocal hn)
  | some m => exact sameVersion_of_local_node? hlocal hn

end Probes

end FindingSet

end AppAtlas
