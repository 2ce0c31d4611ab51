import AppAtlas.Proofs.Document.Proper
import AppAtlas.Proofs.Store.History

/-!
# Published graphs

Whatever happens to a store, and also when it is restored from a document, the nodes of its graph
stand under the identities that their kinds and signatures give.  This needs nothing of the versions
of files: it is enough that every contribution that is entered is identified.

* `Store.CommitsKeep.published`: what empty stores have and commits keep, all published stores
  have.
* `Store.Published.sound`: their graphs are sound.
-/

namespace AppAtlas

open Std OrderedMap

variable {κ : Type}

def Graph.Sound (g : Graph κ) : Prop :=
  ∀ (id : NodeId) (n : Node), g.nodes[id]? = some n → n.id = id ∧ n.id = n.expectedId

theorem Graph.sound_empty (v : Nat) : (Graph.empty v : Graph κ).Sound := by
  intro id n hn
  simp [Graph.empty] at hn

/-! ### Ledgers of identified contributions -/

/-- All contributions that a ledger holds have a property. -/
def Ledger.Each (P : Contribution κ → Prop) (l : Ledger κ) : Prop :=
  ∀ (k : FileKey) (c : Contribution κ), l.contributions[k]? = some c → P c

def Ledger.Identified (l : Ledger κ) : Prop := l.Each Contribution.Identified

namespace Ledger

variable {l : Ledger κ} {P : Contribution κ → Prop}

theorem each_empty (v : Nat) : (empty v : Ledger κ).Each P := by
  intro k c hc
  simp [empty] at hc

theorem Each.attach (h : l.Each P) {c : Contribution κ} (hc : P c) : (l.attach c).Each P :=
  forall_insert h hc

theorem Each.detach (h : l.Each P) (p : String) : (l.detach p).1.Each P := by
  rw [Ledger.detach]
  cases l.paths.get? p with
  | none => exact h
  | some key =>
    dsimp only
    cases l.contributions.get? key with
    | none => exact h
    | some c => exact forall_erase h key

theorem Identified.node? (h : l.Identified) {id : NodeId} {n : Node} (hn : l.node? id = some n) :
    n.id = id ∧ n.id = n.expectedId := by
  rw [Ledger.node?, Option.orElse_eq_orElse, Option.orElse_eq_or, Option.or_eq_some_iff] at hn
  rcases hn with hn | ⟨-, hn⟩
  · obtain ⟨k, -, hk⟩ := List.exists_of_findSome?_eq_some hn
    obtain ⟨c, hc, hcn⟩ := Option.bind_eq_some_iff.mp hk
    exact ⟨Contribution.id_of_node? hcn, (h k c hc).nodes n (Contribution.mem_of_node? hcn)⟩
  · obtain ⟨k, -, hk⟩ := List.exists_of_findSome?_eq_some hn
    obtain ⟨c, hc, hcn⟩ := Option.bind_eq_some_iff.mp hk
    exact ⟨Contribution.id_of_placeholder? hcn,
      ((h k c hc).placeholders n (Contribution.mem_of_placeholder? hcn)).2⟩

theorem Identified.refreshNodes (h : l.Identified) {g : Graph κ} (hg : g.Sound)
    (ids : List NodeId) : (ids.foldl l.refreshNode g).Sound := by
  induction ids generalizing g with
  | nil => exact hg
  | cons id ids ih =>
    refine ih ?_
    rw [refreshNode]
    cases hn : l.node? id with
    | none => exact forall_erase hg id
    | some n => exact forall_insert hg ⟨rfl, (h.node? hn).2⟩

end Ledger

/-! ### Commits -/

variable [Confidence κ]

theorem Batch.sound_graph {b : Batch κ} (h : b.ledger.Identified) {base : Graph κ}
    (hg : base.Sound) : (b.graph base).Sound := by
  rw [Graph.Sound, (b.graph_frame base).2.1]
  have hstart : ({ base with version := b.ledger.version } : Graph κ).Sound := hg
  exact h.refreshNodes hstart b.nodes.toList

/-- **A commit keeps what its contributions and its graph have.** -/
theorem Ledger.Each.commit {l : Ledger κ} {P : Contribution κ → Prop} (h : l.Each P)
    {Q : Graph κ → Prop} {base : Graph κ} (hg : Q base)
    (hgraph : ∀ b : Batch κ, b.ledger.Each P → Q (b.graph base))
    {changed : List (Contribution κ)} (hc : ∀ c ∈ changed, P c) (removed : List String) :
    (l.commit base changed removed).1.Each P ∧ Q ((l.commit base changed removed).2.getD base) := by
  have hb : (Batch.of l changed removed).ledger.Each P :=
    Batch.of_induction h (fun _ p hl => hl.detach p) fun _ c hmem hl =>
      (hl.detach c.path).attach (hc c hmem)
  rw [Ledger.commit]
  generalize Batch.of l changed removed = b at hb ⊢
  dsimp only
  split
  · exact ⟨hb, hg⟩
  · exact ⟨hb, hgraph _ hb⟩

theorem Ledger.Identified.commit {l : Ledger κ} (h : l.Identified) {base : Graph κ}
    (hg : base.Sound) {changed : List (Contribution κ)} (hc : ∀ c ∈ changed, c.Identified)
    (removed : List String) : (l.commit base changed removed).1.Identified ∧
      ((l.commit base changed removed).2.getD base).Sound :=
  Ledger.Each.commit h hg (fun _ hb => Batch.sound_graph hb hg) hc removed

/-! ### Stores -/

def Contribution.Weighed (c : Contribution κ) : Prop :=
  ∀ e ∈ c.edges, Confidence.isUnit e.confidence = true

theorem Contribution.IsSound.weighed {c : Contribution κ} (h : c.IsSound) : c.Weighed :=
  fun _ he => (h.edge he).2.1

namespace Document

theorem Proper.identified {d : Document κ} (h : d.Proper) :
    ∀ c ∈ d.contributions, c.Identified := by
  intro c hc
  obtain ⟨x, hx, rfl⟩ := List.mem_map.mp hc
  constructor
  · intro n hn
    obtain ⟨id, -, hfind⟩ := List.mem_filterMap.mp hn
    exact h.nodes n (List.mem_of_find?_eq_some hfind)
  · intro n hn
    obtain ⟨hstub, hid, -⟩ := (h.entries x hx).2.2 n hn
    exact ⟨hstub, hid⟩

theorem Proper.weighed {d : Document κ} (h : d.Proper) : ∀ c ∈ d.contributions, c.Weighed := by
  intro c hc e he
  obtain ⟨x, hx, rfl⟩ := List.mem_map.mp hc
  obtain ⟨id, -, hfind⟩ := List.mem_filterMap.mp he
  obtain ⟨whole, hwhole, rfl⟩ := Option.map_eq_some_iff.mp hfind
  exact (h.edges whole (List.mem_of_find?_eq_some hwhole)).2.1

end Document

/-- **A document is restored** if and only if it is proper and its contributions make its nodes and
edges; the store is then the one that they make. -/
theorem Store.restore_eq_ok_iff {d : Document κ} {s : Store κ} :
    Store.restore d = .ok s ↔ d.Proper ∧
      d.store.graph.nodes = ExtTreeMap.ofList (d.nodes.map fun n => (n.id, n)) compare ∧
      d.store.graph.edges = ExtTreeMap.ofList (d.edges.map fun e => (e.id, e)) compare ∧
      d.store = s := by
  have hnone : d.refusal? = none ↔ d.Proper ∧
      d.store.graph.nodes = ExtTreeMap.ofList (d.nodes.map fun n => (n.id, n)) compare ∧
      d.store.graph.edges = ExtTreeMap.ofList (d.edges.map fun e => (e.id, e)) compare := by
    rw [← Document.fault?_eq_none_iff, Document.refusal?, Option.or_eq_none_iff]
    split
    · next hnodes => simp [hnodes]
    · next hnodes =>
      rw [not_not.mp hnodes]
      split
      · next hedges => simp [hedges]
      · next hedges => simp [not_not.mp hedges]
  rw [Store.restore_eq_elim, ← and_assoc, ← and_assoc, and_assoc (a := d.Proper), ← hnone]
  cases d.refusal? <;> simp

theorem Store.restore_of_isOk {d : Document κ} (h : (Store.restore d).isOk) :
    Store.restore d = .ok d.store := by
  cases hs : Store.restore d with
  | error e => rw [hs] at h; exact absurd h (by simp [Except.isOk, Except.toBool])
  | ok s => rw [(restore_eq_ok_iff.mp hs).2.2.2]

/-- The stores that can come up: new ones, those that a call makes, and restored ones. -/
inductive Store.Published : Store κ → Prop where
  | empty : Published .empty
  | call {s s' : Store κ} {call : Store.Call κ} (hs : Published s) (h : call.run s = .ok s') :
    Published s'
  | restore {d : Document κ} {s : Store κ} (h : Store.restore d = .ok s) : Published s

theorem Store.Published.runAll {s : Store κ} (hs : s.Published) (calls : List (Store.Call κ)) :
    (s.runAll calls).Published := by
  induction calls generalizing s with
  | nil => exact hs
  | cons call calls ih =>
    have hnext : (call.act.leaves s).Published := by
      rw [Store.Call.leaves_act]
      cases hr : call.run s with
      | error e => exact hs
      | ok s' => exact .call hs hr
    exact ih hnext

theorem Store.published_afterCalls (calls : List (Store.Call κ)) :
    (Store.afterCalls calls).Published :=
  Store.Published.empty.runAll calls

namespace Store

variable {s s' : Store κ} {changed : List (Contribution κ)} {removed : List String}
  {cancelled : Bool}

/-- Empty stores have a property of ledgers and graphs, commits keep it and it does not hang on
versions. -/
structure CommitsKeep (P : Ledger κ → Graph κ → Prop) : Prop where
  empty : P .empty .empty
  commit {l : Ledger κ} {g : Graph κ} {changed : List (Contribution κ)} (removed : List String) :
    P l g → (∀ c ∈ changed, c.Identified ∧ c.Weighed) →
    P (l.commit g changed removed).1 ((l.commit g changed removed).2.getD g)
  version {l : Ledger κ} {g : Graph κ} (v v' : Nat) (introduced : ExtTreeMap NodeId Nat compare) :
    P l g → P { l with version := v } { g with version := v', introduced := introduced }

namespace CommitsKeep

variable {P : Ledger κ → Graph κ → Prop}

theorem applyChanges (hP : CommitsKeep P) (hs : P s.ledger s.graph)
    (h : s.applyChanges changed removed cancelled = .ok s') : P s'.ledger s'.graph := by
  obtain ⟨haccepted, rfl⟩ := applyChanges_eq h
  have hsound := (refusal?_eq_none_iff.mp haccepted).1
  exact hP.commit removed hs fun c hc => ⟨(hsound c hc).identified, (hsound c hc).weighed⟩

theorem rebuild (hP : CommitsKeep P) (h : s.rebuild changed cancelled = .ok s') :
    P s'.ledger s'.graph := by
  obtain ⟨haccepted, hmade⟩ := rebuild_eq h
  have hsound := (refusal?_eq_none_iff.mp haccepted).1
  have hstart : P (.empty s.graph.version) .empty := hP.version s.graph.version 0 ∅ hP.empty
  have hcommitted := hP.commit [] hstart fun c hc =>
    ⟨(hsound c hc).identified, (hsound c hc).weighed⟩
  obtain ⟨g, hg, rfl⟩ | ⟨hnone, rfl⟩ := hmade
  · rw [hg] at hcommitted
    exact hP.version _ g.version _ hcommitted
  · rw [hnone] at hcommitted
    exact hP.version _ (s.graph.version + 1) ∅ hcommitted

/-- **What empty stores have and commits keep, all published stores have.** -/
theorem published (hP : CommitsKeep P) (h : s.Published) : P s.ledger s.graph := by
  induction h with
  | empty => exact hP.empty
  | @call s s' call _ h ih =>
    cases call with
    | apply c => exact hP.applyChanges ih h
    | applyChanges changed removed cancelled => exact hP.applyChanges ih h
    | remove path =>
      have h : s.applyChanges [] [path] = .ok s' := h
      exact hP.applyChanges ih h
    | rebuild changed cancelled => exact hP.rebuild h
  | restore h =>
    obtain ⟨hproper, -, -, rfl⟩ := restore_eq_ok_iff.mp h
    exact hP.version _ _ _ (hP.commit [] hP.empty fun c hc =>
      ⟨hproper.identified c hc, hproper.weighed c hc⟩)

end CommitsKeep

structure Identified (s : Store κ) : Prop where
  ledger : s.ledger.Identified
  graph : s.graph.Sound

theorem commitsKeep_identified : CommitsKeep fun (l : Ledger κ) g => l.Identified ∧ g.Sound where
  empty := ⟨Ledger.each_empty 0, Graph.sound_empty 0⟩
  commit removed hs hc := hs.1.commit hs.2 (fun c hmem => (hc c hmem).1) removed
  version _ _ _ hs := hs

theorem Identified.applyChanges (hs : s.Identified)
    (h : s.applyChanges changed removed cancelled = .ok s') : s'.Identified :=
  have hkept := commitsKeep_identified.applyChanges ⟨hs.ledger, hs.graph⟩ h
  ⟨hkept.1, hkept.2⟩

theorem Identified.rebuild (h : s.rebuild changed cancelled = .ok s') : s'.Identified :=
  ⟨(commitsKeep_identified.rebuild h).1, (commitsKeep_identified.rebuild h).2⟩

/-- **The graphs that stores publish are sound.** -/
theorem Published.sound (h : s.Published) : s.graph.Sound :=
  (commitsKeep_identified.published h).2

end Store

end AppAtlas
