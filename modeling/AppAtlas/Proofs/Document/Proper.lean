import AppAtlas.Document.Basic
import Mathlib.Data.List.Basic

/-!
# Documents that are accepted

A document is checked entry by entry, and the first fault is what is reported.  `Document.Proper`
says without any order what it takes to have no fault, and `Document.fault?_eq_none_iff` that this
is what the check accepts.

Nodes, edges and entries are checked in one way: each is looked at alone and against those before
it.  So one induction, `findSomeAfter?_eq_none_iff`, does for all three lists.
-/

namespace AppAtlas

open List

variable {κ : Type}

/-- A search that looks at each entry alone and against those before it finds nothing if and only
if every entry passes and no two clash. -/
theorem findSomeAfter?_eq_none_iff {α β : Type} {f : List α → α → Option β} {P : α → Prop}
    {R : α → α → Prop} (hf : ∀ before a, f before a = none ↔ P a ∧ ∀ b ∈ before, R b a)
    {as before : List α} : findSomeAfter? f before as = none ↔
      (∀ a ∈ as, P a) ∧ as.Pairwise R ∧ ∀ b ∈ before, ∀ a ∈ as, R b a := by
  induction as generalizing before with
  | nil => simp [findSomeAfter?]
  | cons a as ih =>
    rw [findSomeAfter?, Option.orElse_eq_orElse, Option.orElse_eq_or, Option.or_eq_none_iff, hf, ih]
    simp only [forall_mem_cons, pairwise_cons, mem_append, mem_singleton]
    constructor
    · rintro ⟨⟨ha, hbefore⟩, has, hpair, hall⟩
      exact ⟨⟨ha, has⟩, ⟨hall a (.inr rfl), hpair⟩,
        fun b hb => ⟨hbefore b hb, hall b (.inl hb)⟩⟩
    · rintro ⟨⟨ha, has⟩, ⟨hfirst, hpair⟩, hbefore⟩
      refine ⟨⟨ha, fun b hb => (hbefore b hb).1⟩, has, hpair, ?_⟩
      rintro b (hb | rfl)
      · exact (hbefore b hb).2
      · exact hfirst

def Entry.carries (x : Entry) (id : NodeId) : Bool :=
  x.nodeIds.contains id || x.placeholders.any (·.id == id)

theorem Entry.carries_iff {x : Entry} {id : NodeId} :
    x.carries id ↔ id ∈ x.nodeIds ∨ ∃ n ∈ x.placeholders, n.id = id := by
  simp [Entry.carries]

namespace Document

section

variable {d : Document κ}

theorem hasNode_iff {id : NodeId} : d.hasNode id ↔ ∃ n ∈ d.nodes, n.id = id := by
  simp [hasNode]

theorem hasEdge_iff {id : EdgeId} : d.hasEdge id ↔ ∃ e ∈ d.edges, e.id = id := by
  simp [hasEdge]

theorem claimsNode_iff {id : NodeId} : d.claimsNode id ↔ ∃ x ∈ d.provenance, x.carries id := by
  simp [claimsNode, Entry.carries]

theorem claimsEdge_iff {id : EdgeId} : d.claimsEdge id ↔ ∃ x ∈ d.provenance, id ∈ x.edgeIds := by
  simp [claimsEdge]

end

variable [Confidence κ] {d : Document κ}

/-- **A proper document**: identities are right and not repeated, edges and entries speak only of
what is there, and everything there comes from some file. -/
structure Proper (d : Document κ) : Prop where
  format : d.format = currentFormat
  nodes : ∀ n ∈ d.nodes, n.id = n.expectedId
  nodes_apart : d.nodes.Pairwise fun a b => a.id ≠ b.id
  edges : ∀ e ∈ d.edges, e.id = EdgeId.of e.source e.target e.kind ∧
    Confidence.isUnit e.confidence ∧ d.hasNode e.source ∧ d.hasNode e.target
  edges_apart : d.edges.Pairwise fun a b => a.id ≠ b.id
  entries : ∀ x ∈ d.provenance, (∀ id ∈ x.nodeIds, d.hasNode id) ∧
    (∀ id ∈ x.edgeIds, d.hasEdge id) ∧
    ∀ n ∈ x.placeholders, n.isStub ∧ n.id = n.expectedId ∧ d.hasNode n.id
  entries_apart : d.provenance.Pairwise fun a b => a.key ≠ b.key ∧ a.path ≠ b.path
  nodes_claimed : ∀ n ∈ d.nodes, d.claimsNode n.id
  edges_claimed : ∀ e ∈ d.edges, d.claimsEdge e.id

omit [Confidence κ] in
theorem nodeFault?_eq_none_iff (before : List Node) (n : Node) :
    (nodeFault? before n : Option (Corruption κ)) = none ↔
      n.id = n.expectedId ∧ ∀ b ∈ before, b.id ≠ n.id := by
  rw [nodeFault?]
  by_cases hid : n.id = n.expectedId
  · by_cases hrepeated : ∃ b ∈ before, b.id = n.id <;> simp_all
  · simp [hid]

theorem edgeFault?_eq_none_iff (before : List (Edge κ)) (e : Edge κ) :
    d.edgeFault? before e = none ↔
      (e.id = EdgeId.of e.source e.target e.kind ∧ Confidence.isUnit e.confidence ∧
        d.hasNode e.source ∧ d.hasNode e.target) ∧ ∀ b ∈ before, b.id ≠ e.id := by
  rw [edgeFault?]
  by_cases hid : e.id = EdgeId.of e.source e.target e.kind
  · rw [if_neg (not_not.mpr hid)]
    by_cases hrepeated : (before.any (·.id == e.id))
    · rw [if_pos hrepeated]
      obtain ⟨b, hb, hbe⟩ := any_eq_true.mp hrepeated
      simp only [reduceCtorEq, false_iff, not_and]
      exact fun _ hall => hall b hb (by simpa using hbe)
    · rw [if_neg hrepeated]
      have hapart : ∀ b ∈ before, b.id ≠ e.id := fun b hb he =>
        hrepeated (any_eq_true.mpr ⟨b, hb, by simpa using he⟩)
      cases Confidence.isUnit e.confidence <;> cases d.hasNode e.source <;>
        cases d.hasNode e.target <;> simp_all
  · simp [hid]

omit [Confidence κ] in
theorem placeholderFault?_eq_none_iff (path : String) (n : Node) :
    d.placeholderFault? path n = none ↔ n.isStub ∧ n.id = n.expectedId ∧ d.hasNode n.id := by
  rw [placeholderFault?]
  by_cases hid : n.id = n.expectedId <;> cases n.isStub <;> cases d.hasNode n.id <;> simp_all

omit [Confidence κ] in
theorem entryFault?_eq_none_iff (before : List Entry) (x : Entry) : d.entryFault? before x = none ↔
      ((∀ id ∈ x.nodeIds, d.hasNode id) ∧ (∀ id ∈ x.edgeIds, d.hasEdge id) ∧
        ∀ n ∈ x.placeholders, n.isStub ∧ n.id = n.expectedId ∧ d.hasNode n.id) ∧
      ∀ b ∈ before, b.key ≠ x.key ∧ b.path ≠ x.path := by
  rw [entryFault?]
  by_cases hrepeated : (before.any fun b => b.key == x.key || b.path == x.path) = true
  · rw [if_pos hrepeated]
    obtain ⟨b, hb, hbx⟩ := any_eq_true.mp hrepeated
    simp only [reduceCtorEq, false_iff, not_and]
    intro _ hall
    have hapart := hall b hb
    simp [hapart.1, hapart.2] at hbx
  · rw [if_neg hrepeated]
    have hapart : ∀ b ∈ before, b.key ≠ x.key ∧ b.path ≠ x.path := by
      intro b hb
      refine ⟨fun he => hrepeated ?_, fun he => hrepeated ?_⟩ <;>
        exact any_eq_true.mpr ⟨b, hb, by simp [he]⟩
    simp only [Option.orElse_eq_orElse, Option.orElse_eq_or, Option.or_eq_none_iff,
      Option.map_eq_none_iff, find?_eq_none, findSome?_eq_none_iff,
      placeholderFault?_eq_none_iff, Bool.not_eq_true', Bool.not_eq_false]
    exact ⟨fun h => ⟨h, hapart⟩, fun h => h.1⟩

/-- **The documents that are accepted are the proper ones.** -/
theorem fault?_eq_none_iff : d.fault? = none ↔ d.Proper := by
  rw [fault?]
  by_cases hformat : d.format = currentFormat
  · rw [if_neg (not_not.mpr hformat)]
    simp only [corruption?, Option.map_eq_none_iff, Option.orElse_eq_orElse, Option.orElse_eq_or,
      Option.or_eq_none_iff, findSomeAfter?_eq_none_iff nodeFault?_eq_none_iff,
      findSomeAfter?_eq_none_iff edgeFault?_eq_none_iff,
      findSomeAfter?_eq_none_iff entryFault?_eq_none_iff, find?_eq_none, Bool.not_eq_true',
      Bool.not_eq_false, not_mem_nil, false_implies, implies_true, and_true]
    constructor
    · rintro ⟨⟨hn, hna⟩, ⟨he, hea⟩, ⟨hx, hxa⟩, hcn, hce⟩
      exact ⟨hformat, hn, hna, he, hea, hx, hxa, hcn, hce⟩
    · rintro ⟨-, hn, hna, he, hea, hx, hxa, hcn, hce⟩
      exact ⟨⟨hn, hna⟩, ⟨he, hea⟩, ⟨hx, hxa⟩, hcn, hce⟩
  · rw [if_pos hformat]
    simp only [reduceCtorEq, false_iff]
    exact fun h => hformat h.format

end Document

end AppAtlas
