import AppAtlas.Proofs.Store.History

/-!
# Closed graphs

A graph is closed if both ends of every edge are among its nodes.  A sound contribution carries the
ends of its edges, so a graph that shows sound contributions is closed, and a file that is removed
takes along what no other file contributes.

For a store this needs that the ledger can tell files apart by their versions: contributions are
held by version, so one that is entered under a version that another path has takes its place.
`Contributions.KeysApart` says that this does not happen.

* `closed_and_removed_of_keysApart`: after such calls the graph is closed, and removing a file
  leaves what the others contribute.
* `sharedVersion_leaves_dangling_edge`: two files under one version, and the removal of one of them
  leaves an edge without its source.
-/

namespace AppAtlas

open Std OrderedMap

variable {κ : Type}

/-- **A graph is closed** if both ends of every edge are among its nodes. -/
def Graph.Closed (g : Graph κ) : Prop :=
  ∀ e ∈ g.edgeList, g.hasNode e.source ∧ g.hasNode e.target

instance (g : Graph κ) : Decidable g.Closed := inferInstanceAs (Decidable (∀ e ∈ _, _))

variable [Confidence κ] {owner : FileKey → String} {t : Contributions κ}

namespace Graph.Shows

variable {g : Graph κ}

theorem hasNode_iff (h : g.Shows t) {id : NodeId} : g.hasNode id ↔
    ∃ (p : String) (c : Contribution κ), t[p]? = some c ∧ c.carries id := by
  rw [← h.node_isSome_iff, Graph.hasNode, Graph.node?, ExtTreeMap.get?_eq_getElem?,
    ExtTreeMap.contains_eq_isSome_getElem?]

theorem exists_edge (h : g.Shows t) {e : Edge κ} (he : e ∈ g.edgeList) :
    ∃ (p : String) (c : Contribution κ) (d : Edge κ), t[p]? = some c ∧ d ∈ c.edges ∧ d.id = e.id ∧
      d.source = e.source ∧ d.target = e.target ∧ d.kind = e.kind := by
  obtain ⟨-, p, c, d, hc, hd, -, hsource, htarget, hkind⟩ := h.edge_ends (h.mem_edgeList.mp he)
  exact ⟨p, c, d, hc, List.mem_of_find?_eq_some hd, Contribution.id_of_edge? hd, hsource.symm,
    htarget.symm, hkind.symm⟩

/-- **What sound contributions make is closed.** -/
theorem closed (h : g.Shows t)
    (hsound : ∀ (p : String) (c : Contribution κ), t[p]? = some c → c.IsSound) : g.Closed := by
  intro e he
  obtain ⟨p, c, d, hc, hd, -, hsource, htarget, -⟩ := h.exists_edge he
  obtain ⟨-, -, hcarries, hcarries'⟩ := (hsound p c hc).edge hd
  rw [hsource] at hcarries
  rw [htarget] at hcarries'
  exact ⟨h.hasNode_iff.mpr ⟨p, c, hc, hcarries⟩, h.hasNode_iff.mpr ⟨p, c, hc, hcarries'⟩⟩

end Graph.Shows

/-! ### Versions that tell files apart -/

/-- What a call gives and what is in force when it comes have one version only for one path. -/
def Store.Call.KeysApart (call : Store.Call κ) (t : Contributions κ) : Prop :=
  call.Enters → ∀ c ∈ t.values ++ call.given, ∀ d ∈ t.values ++ call.given,
    c.key = d.key → c.path = d.path

instance (call : Store.Call κ) (t : Contributions κ) : Decidable (call.KeysApart t) :=
  inferInstanceAs (Decidable (_ → ∀ c ∈ _, ∀ d ∈ _, _))

/-- Along some calls, versions tell files apart. -/
def Contributions.KeysApart : Contributions κ → List (Store.Call κ) → Prop
  | _, [] => True
  | t, call :: calls =>
    call.KeysApart t ∧ KeysApart (if call.Enters then call.enter t else t) calls

instance Contributions.decidableKeysApart :
    (t : Contributions κ) → (calls : List (Store.Call κ)) → Decidable (t.KeysApart calls)
  | _, [] => isTrue trivial
  | _, _ :: calls => @instDecidableAnd _ _ _ (decidableKeysApart _ calls)

theorem Store.Holds.withOwner {s : Store κ} (hs : s.Holds owner t) {owner' : FileKey → String}
    (h : ∀ c ∈ t.values, owner' c.key = c.path) : s.Holds owner' t where
  records := hs.records
  keyed p c hc := by
    have hpath := (hs.keyed p c hc).1
    exact ⟨hpath, (h c (mem_values.mpr ⟨p, hc⟩)).trans hpath⟩
  shows := hs.shows
  dated := hs.dated
  version := hs.version

/-- **Calls that keep versions apart keep store and contributions together**: before each call the
versions in force and those that it gives tell their paths. -/
theorem Store.Holds.runAll_of_keysApart {s : Store κ} (hs : s.Holds owner t)
    {calls : List (Store.Call κ)} (h : t.KeysApart calls) :
    ∃ owner', (s.runAll calls).Holds owner' (t.enterAll calls) := by
  induction calls generalizing s t owner with
  | nil => exact ⟨owner, hs⟩
  | cons call calls ih =>
    obtain ⟨hcall, hcalls⟩ := h
    by_cases henters : call.Enters
    · -- versions may have changed hands since the last call, so the owners are found anew
      obtain ⟨owner', howner⟩ := exists_owner (hcall henters)
      have hs' := hs.withOwner fun c hc => howner c (List.mem_append_left _ hc)
      have hstep := Store.Call.holds_step hs' fun _ c hc => howner c (List.mem_append_right _ hc)
      exact ih hstep hcalls
    · have hstep := Store.Call.holds_step hs fun h => absurd h henters
      exact ih hstep hcalls

/-! ### Removing a file -/

theorem Store.Holds.remove {s : Store κ} (hs : s.Holds owner t) (p : String) :
    ∃ s', s.remove p = .ok s' ∧ s'.Holds owner (t.erase p) := by
  -- nothing is given, so nothing can be refused
  have happly : s.applyChanges [] [p] = .ok (s.committed [] [p]) := s.applyChanges_eq_elim [] [p] false
  exact ⟨_, happly, (hs.applyChanges (fun c hc => absurd hc List.not_mem_nil) happly).1⟩

omit [Confidence κ] in
theorem Contributions.getElem?_erase_eq_some {p q : String} {c : Contribution κ} :
    (t.erase p)[q]? = some c ↔ q ≠ p ∧ t[q]? = some c := by
  rw [getElem?_erase_of]
  by_cases hq : p = q
  · simp [hq]
  · simp [hq, Ne.symm hq]

/-- **As long as versions tell files apart, the graph is closed, and removing a file leaves exactly
what the other files contribute.** -/
theorem closed_and_removed_of_keysApart (calls : List (Store.Call κ))
    (h : Contributions.KeysApart ∅ calls) :
    (Store.afterCalls calls).graph.Closed ∧
    ∀ p : String, ∃ s' : Store κ, (Store.afterCalls calls).remove p = .ok s' ∧ s'.graph.Closed ∧
      (∀ id : NodeId, (s'.graph.node? id).isSome ↔ ∃ (q : String) (c : Contribution κ),
        q ≠ p ∧ (survivors calls)[q]? = some c ∧ c.carries id) ∧
      (∀ id : EdgeId, (s'.graph.edge? id).isSome ↔ ∃ (q : String) (c : Contribution κ),
        q ≠ p ∧ (survivors calls)[q]? = some c ∧ (c.edge? id).isSome) ∧
      ∀ (k : FileKey) (v : Provenance), s'.graph.provenance[k]? = some v ↔
        ∃ (q : String) (c : Contribution κ), q ≠ p ∧ (survivors calls)[q]? = some c ∧ c.key = k ∧
          c.provenance = v := by
  obtain ⟨owner, hholds⟩ := (Store.holds_empty fun _ => "").runAll_of_keysApart h
  have hsound := Contributions.sound_enterAll calls
  refine ⟨hholds.shows.closed hsound, fun p => ?_⟩
  obtain ⟨s', hremove, hholds'⟩ := hholds.remove p
  have hshows := hholds'.shows
  refine ⟨s', hremove, hshows.closed fun q c hc => ?_, fun id => ?_, fun id => ?_, fun k v => ?_⟩
  · exact hsound q c (Contributions.getElem?_erase_eq_some.mp hc).2
  · rw [hshows.node_isSome_iff]
    simp only [Contributions.getElem?_erase_eq_some, and_assoc]
    rfl
  · rw [hshows.edge_isSome_iff]
    simp only [Contributions.getElem?_erase_eq_some, and_assoc]
    rfl
  · rw [hshows.provenance]
    simp only [Contributions.getElem?_erase_eq_some, and_assoc]
    rfl

/-- What defines something at a line of a file and says no more about it. -/
def Node.bare (kind : NodeKind) (signature path : String) (line : Nat) : Node where
  id := NodeId.of kind signature
  kind := kind
  file := some path
  lines := ⟨line, line⟩
  signature := signature
  name := signature
  attributes := ∅

def readingEdge : Edge Float where
  id := EdgeId.of (NodeId.of .statement "x") (NodeId.of .table "y") .reads
  source := NodeId.of .statement "x"
  target := NodeId.of .table "y"
  kind := .reads
  confidence := 1
  evidence := []

def readingFile (key path : String) : Contribution Float where
  key := ⟨key⟩
  path := path
  nodes := [Node.bare .statement "x" path 1, Node.bare .table "y" path 2]
  edges := [readingEdge]

def statementFile (key path : String) : Contribution Float where
  key := ⟨key⟩
  path := path
  nodes := [Node.bare .statement "x" path 1]

/-- A file that is moved: its version is entered again under another path once it is gone from the
first. -/
def movedFile : List (Store.Call Float) :=
  [.apply (readingFile "k" "a.sql"), .applyChanges [statementFile "l" "c.sql"] [] false,
    .remove "a.sql", .apply (readingFile "k" "b.sql")]

theorem movedFile_closed_and_removed :
    Contributions.KeysApart ∅ movedFile ∧ (Store.afterCalls movedFile).graph.edgeList.length = 1 ∧
    (Store.afterCalls movedFile).graph.Closed ∧
    ∀ p : String, ∃ s' : Store Float, (Store.afterCalls movedFile).remove p = .ok s' ∧
      s'.graph.Closed ∧
      (∀ id : NodeId, (s'.graph.node? id).isSome ↔ ∃ (q : String) (c : Contribution Float),
        q ≠ p ∧ (survivors movedFile)[q]? = some c ∧ c.carries id) ∧
      (∀ id : EdgeId, (s'.graph.edge? id).isSome ↔ ∃ (q : String) (c : Contribution Float),
        q ≠ p ∧ (survivors movedFile)[q]? = some c ∧ (c.edge? id).isSome) ∧
      ∀ (k : FileKey) (v : Provenance), s'.graph.provenance[k]? = some v ↔
        ∃ (q : String) (c : Contribution Float), q ≠ p ∧ (survivors movedFile)[q]? = some c ∧
          c.key = k ∧ c.provenance = v :=
  have hapart : Contributions.KeysApart ∅ movedFile := by decide +kernel
  ⟨hapart, by decide +kernel, closed_and_removed_of_keysApart movedFile hapart⟩

/-- Two files under one version, the first of them removed in the end. -/
def sharedVersion : List (Store.Call Float) :=
  [.apply (readingFile "k" "a.sql"), .apply (statementFile "k" "b.sql"), .remove "a.sql"]

/-- **Two files under one version**: every call is entered, and yet the graph is left with an edge
whose source is gone, and with a table that only the removed file contributed. -/
theorem sharedVersion_leaves_dangling_edge :
    (∀ call ∈ sharedVersion, call.Enters) ∧
    ¬(Store.afterCalls sharedVersion).graph.Closed ∧
    ((Store.afterCalls sharedVersion).graph.node? (NodeId.of .table "y")).isSome ∧
    ∀ c ∈ sharedVersion.flatMap (·.given), c.carries (NodeId.of .table "y") → c.path = "a.sql" := by
  decide +kernel

end AppAtlas
