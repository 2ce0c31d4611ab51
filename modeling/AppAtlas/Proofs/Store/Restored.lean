import AppAtlas.Proofs.Document.Split
import AppAtlas.Proofs.Store.Closed
import AppAtlas.Proofs.Store.Published
import Mathlib.Data.List.Pairwise

/-!
# Restored stores

A document that is accepted is restored to the store that holds its contributions, and from there on
calls work as on any other store.  The graph is closed at first, because the document is: but an
entry of a document may list an edge and not carry its ends, if another entry carries them, and then
the edge is left alone when the other file goes.

* `closed_after_restore_unless_split`: after any calls only an edge that an entry lists without its
  ends can dangle, and the documents without such entries are those whose graphs stay closed.
* `readingDocument_leaves_dangling_edge`: a document that is accepted and left with an edge without
  ends.
-/

namespace AppAtlas

open List Std OrderedMap

variable {κ : Type} [Confidence κ] {d : Document κ} {s₀ : Store κ}

namespace Document

def held (d : Document κ) : Contributions κ := Contributions.after ∅ d.contributions []

theorem Proper.entry_eq (h : d.Proper) {x y : Entry} (hx : x ∈ d.provenance)
    (hy : y ∈ d.provenance) (hxy : x.key = y.key ∨ x.path = y.path) : x = y := by
  by_contra hne
  have : Symm fun a b : Entry => a.key ≠ b.key ∧ a.path ≠ b.path :=
    ⟨fun _ _ hab => ⟨hab.1.symm, hab.2.symm⟩⟩
  have hapart := h.entries_apart.forall hx hy hne
  exact hxy.elim hapart.1 hapart.2

/-- **The contributions in force are those of the entries**, by path. -/
theorem Proper.getElem?_held (h : d.Proper) {p : String} {c : Contribution κ} :
    d.held[p]? = some c ↔ ∃ x ∈ d.provenance, x.path = p ∧ d.contribution x = c := by
  have hentry : ∀ c, d.held[p]? = some c →
      ∃ x ∈ d.provenance, x.path = p ∧ d.contribution x = c := by
    intro c hc
    rw [held, Contributions.getElem?_after, ExtTreeMap.getElem?_empty, ite_self,
      Option.or_none] at hc
    obtain ⟨x, hx, rfl⟩ := mem_map.mp (mem_reverse.mp (mem_of_find?_eq_some hc))
    have hpath : x.path = p := by simpa [contribution] using find?_some hc
    exact ⟨x, hx, hpath, rfl⟩
  refine ⟨hentry c, ?_⟩
  -- the other way, no other entry has the path
  rintro ⟨x, hx, hpath, rfl⟩
  cases hc : d.held[p]? with
  | none =>
    rw [held, Contributions.getElem?_after, ExtTreeMap.getElem?_empty, ite_self, Option.or_none,
      find?_eq_none] at hc
    have hin : d.contribution x ∈ d.contributions.reverse :=
      mem_reverse.mpr (mem_map_of_mem hx)
    exact absurd (hc _ hin) (by simp [contribution, hpath])
  | some c' =>
    obtain ⟨y, hy, hpath', rfl⟩ := hentry c' hc
    rw [h.entry_eq hx hy (.inr (hpath.trans hpath'.symm))]

theorem Proper.exists_owner (h : d.Proper) :
    ∃ owner : FileKey → String, ∀ c ∈ d.contributions, owner c.key = c.path := by
  refine AppAtlas.exists_owner fun c hc c' hc' hkey => ?_
  obtain ⟨x, hx, rfl⟩ := mem_map.mp hc
  obtain ⟨y, hy, rfl⟩ := mem_map.mp hc'
  rw [h.entry_eq hx hy (.inl hkey)]

/-- **The store made of a document holds its contributions.** -/
theorem holds_store {owner : FileKey → String}
    (howner : ∀ c ∈ d.contributions, owner c.key = c.path) : d.store.Holds owner d.held := by
  have hstart : (Ledger.empty 0 : Ledger κ).Records ∅ := Ledger.records_empty 0
  obtain ⟨hrecords, hkeyed, hshows⟩ :=
    hstart.commit Contributions.keyed_empty howner [] (Graph.shows_empty 0)
  have hsucceeds := Ledger.commit_succeeds (Ledger.empty 0) d.contributions []
    (Graph.dated_empty 0)
  refine ⟨hrecords.withVersion _, hkeyed, ?_, fun id => ?_, rfl⟩
  · exact ⟨hshows.nodes, hshows.edges, hshows.definers, hshows.files, hshows.provenance⟩
  · refine Eq.trans ?_ (hsucceeds.dated (Graph.dated_empty 0) id)
    show (ExtTreeMap.map _ _)[id]?.isSome = _
    rw [ExtTreeMap.getElem?_map, Option.isSome_map]

/-- Each entry carries the ends of the edges that it lists. -/
def EndsCarried (d : Document κ) : Prop :=
  ∀ x ∈ d.provenance, ∀ e ∈ d.edges, e.id ∈ x.edgeIds → x.carries e.source ∧ x.carries e.target

instance (d : Document κ) : Decidable d.EndsCarried :=
  inferInstanceAs (Decidable (∀ x ∈ _, ∀ e ∈ _, _ → _))

theorem Proper.exists_carries (h : d.Proper) {e : Edge κ} (he : e ∈ d.edges) {id : NodeId}
    (hid : id = e.source ∨ id = e.target) : ∃ x ∈ d.provenance, x.carries id := by
  obtain ⟨-, -, hsource, htarget⟩ := h.edges e he
  have hthere : d.hasNode id := by rcases hid with rfl | rfl <;> assumption
  obtain ⟨n, hn, rfl⟩ := hasNode_iff.mp hthere
  exact claimsNode_iff.mp (h.nodes_claimed n hn)

end Document

/-! ### Edges after later calls -/

/-- Only what an entry lists without its ends can lose them: the entry is still in force, and
another one that carried the end is not. -/
theorem Document.Proper.hasNode_or_split (h : d.Proper) {calls : List (Store.Call κ)} {g : Graph κ}
    {owner : FileKey → String} (hkeyed : (d.held.enterAll calls).Keyed owner)
    (hg : g.Shows (d.held.enterAll calls)) {e : Edge κ} (he : e ∈ g.edgeList) {id : NodeId}
    (hid : id = e.source ∨ id = e.target) :
    g.hasNode id ∨ ∃ x ∈ d.provenance, ∃ y ∈ d.provenance, ∃ e' ∈ d.edges,
      e'.id = e.id ∧ e'.source = e.source ∧ e'.target = e.target ∧
      e.id ∈ x.edgeIds ∧ ¬x.carries id ∧ y.carries id ∧
      (d.held.enterAll calls)[x.path]? = some (d.contribution x) ∧
      (d.held.enterAll calls)[y.path]? ≠ some (d.contribution y) := by
  refine or_iff_not_imp_left.mpr fun hnone => ?_
  obtain ⟨p, c, e₁, hc, he₁, hid₁, hsource, htarget, -⟩ := hg.exists_edge he
  have hnot : ¬c.carries id := fun hcarries => hnone (hg.hasNode_iff.mpr ⟨p, c, hc, hcarries⟩)
  have horigin := Contributions.forall_enterAll calls
    (P := fun c => c.IsSound ∨ ∃ x ∈ d.provenance, d.contribution x = c) (fun _ hs => .inl hs)
    (fun p c hc => .inr ((h.getElem?_held.mp hc).imp fun x hx => ⟨hx.1, hx.2.2⟩)) p c hc
  rcases horigin with hsound | ⟨x, hx, rfl⟩
  · -- what was given since is sound
    obtain ⟨-, -, hcarries, hcarries'⟩ := hsound.edge he₁
    rw [hsource] at hcarries
    rw [htarget] at hcarries'
    rcases hid with rfl | rfl
    · exact absurd hcarries hnot
    · exact absurd hcarries' hnot
  · -- what is left of the document has its ends in some entry
    obtain ⟨e', he', hlisted, rfl⟩ := Document.mem_edges_contribution he₁
    have hid' : id = e'.source ∨ id = e'.target :=
      hid.imp (fun h => h.trans hsource.symm) fun h => h.trans htarget.symm
    obtain ⟨y, hy, hcarries⟩ := h.exists_carries he' hid'
    have hpath : x.path = p := (hkeyed p _ hc).1
    refine ⟨x, hx, y, hy, e', he', hid₁, hsource, htarget, hid₁ ▸ hlisted, ?_, hcarries, ?_, ?_⟩
    · rwa [h.carries_contribution hx] at hnot
    · rw [hpath, hc]
    · intro hin
      exact hnone (hg.hasNode_iff.mpr ⟨y.path, _, hin, (h.carries_contribution hy).mpr hcarries⟩)

/-- With all other files removed, the contribution of an entry is left in force alone. -/
theorem Document.Proper.getElem?_held_alone (h : d.Proper) {x : Entry} (hx : x ∈ d.provenance)
    {p : String} {c : Contribution κ} :
    (d.held.after [] ((d.provenance.filter (·.path ≠ x.path)).map (·.path)))[p]? = some c ↔
      p = x.path ∧ d.contribution x = c := by
  rw [Contributions.getElem?_after, reverse_nil, find?_nil, Option.none_or]
  have hremoved : p ∈ (d.provenance.filter (·.path ≠ x.path)).map (·.path) ↔
      ∃ y ∈ d.provenance, y.path = p ∧ p ≠ x.path := by
    simp only [mem_map, mem_filter, decide_eq_true_eq]
    constructor
    · rintro ⟨y, ⟨hy, hne⟩, rfl⟩
      exact ⟨y, hy, rfl, hne⟩
    · rintro ⟨y, hy, rfl, hne⟩
      exact ⟨y, ⟨hy, hne⟩, rfl⟩
  by_cases hp : p = x.path
  · rw [if_neg fun hin => (hremoved.mp hin).elim fun _ hy => hy.2.2 hp, h.getElem?_held]
    constructor
    · rintro ⟨y, hy, hpath, rfl⟩
      exact ⟨hp, by rw [h.entry_eq hx hy (.inr (hp.symm.trans hpath.symm))]⟩
    · rintro ⟨-, rfl⟩
      exact ⟨x, hx, hp.symm, rfl⟩
  · simp only [hp, false_and, iff_false]
    split
    · exact fun hc => absurd hc (by simp)
    · next hin =>
      rw [h.getElem?_held]
      rintro ⟨y, hy, hpath, -⟩
      exact hin (hremoved.mpr ⟨y, hy, hpath, hp⟩)

/-- If an entry lists an edge and not its ends, removing all other files leaves the edge without
them. -/
theorem Document.Proper.exists_not_closed (h : d.Proper) {x : Entry} (hx : x ∈ d.provenance)
    {e : Edge κ} (he : e ∈ d.edges) (hlisted : e.id ∈ x.edgeIds)
    (hnot : ¬(x.carries e.source ∧ x.carries e.target)) :
    ∃ calls : List (Store.Call κ), d.held.KeysApart calls ∧
      ¬(d.store.runAll calls).graph.Closed := by
  obtain ⟨owner, howner⟩ := h.exists_owner
  have hholds := Document.holds_store howner
  let others := (d.provenance.filter (·.path ≠ x.path)).map (·.path)
  let call : Store.Call κ := .applyChanges [] others false
  refine ⟨[call], ⟨fun _ c hc c' hc' hkey => ?_, trivial⟩, fun hclosed => hnot ?_⟩
  · rw [Store.Call.given, append_nil] at hc hc'
    rw [← hholds.keyed.owner_eq hc, ← hholds.keyed.owner_eq hc', hkey]
  have henters : call.Enters := ⟨fun c hc => absurd hc not_mem_nil, rfl⟩
  have hshows : (d.store.runAll [call]).graph.Shows (d.held.after [] others) := by
    have hstep := Store.Call.holds_step hholds fun (_ : call.Enters) c hc =>
      absurd hc not_mem_nil
    rw [if_pos henters] at hstep
    exact hstep.shows
  have hleft : ∀ {p : String} {c : Contribution κ}, (d.held.after [] others)[p]? = some c ↔ _ :=
    h.getElem?_held_alone hx
  -- the edge is there, with the ends that the document gives it
  have hpart : (d.contribution x).edge? e.id = some (d.ownPart x.path e) := by
    rw [Document.edge?_contribution, if_pos hlisted, find?_of_pairwise_key h.edges_apart he]
    rfl
  obtain ⟨e', he'⟩ := Option.isSome_iff_exists.mp
    ((hshows.edge_isSome_iff e.id).mpr ⟨x.path, _, hleft.mpr ⟨rfl, rfl⟩, by rw [hpart]; rfl⟩)
  obtain ⟨hid, p, c, e'', hc, he'', -, hsource, htarget, -⟩ := hshows.edge_ends he'
  obtain ⟨-, rfl⟩ := hleft.mp hc
  obtain rfl := Option.some.inj (hpart.symm.trans he'')
  -- and what a closed graph has must come from the entry
  have hcarried : ∀ {id : NodeId}, (d.store.runAll [call]).graph.hasNode id → x.carries id := by
    intro id hid
    obtain ⟨q, c, hc, hcarries⟩ := hshows.hasNode_iff.mp hid
    obtain ⟨-, rfl⟩ := hleft.mp hc
    exact (h.carries_contribution hx).mp hcarries
  obtain ⟨hhas, hhas'⟩ := hclosed e' (hshows.mem_edgeList.mpr (hid ▸ he'))
  rw [hsource] at hhas
  rw [htarget] at hhas'
  exact ⟨hcarried hhas, hcarried hhas'⟩

/-- **After a document is restored, an edge can lose an end only if an entry lists the edge without
it.**  The entry is still in force then, and another one that carried the end is not.  So the graph
stays closed through all later calls if and only if each entry carries the ends of its edges. -/
theorem closed_after_restore_unless_split (h : Store.restore d = .ok s₀) :
    (∀ calls : List (Store.Call κ), d.held.KeysApart calls →
      ∀ e ∈ (s₀.runAll calls).graph.edgeList, ∀ id : NodeId, id = e.source ∨ id = e.target →
        (s₀.runAll calls).graph.hasNode id ∨
        ∃ x ∈ d.provenance, ∃ y ∈ d.provenance, ∃ e' ∈ d.edges,
          e'.id = e.id ∧ e'.source = e.source ∧ e'.target = e.target ∧
          e.id ∈ x.edgeIds ∧ ¬x.carries id ∧ y.carries id ∧
          (d.held.enterAll calls)[x.path]? = some (d.contribution x) ∧
          (d.held.enterAll calls)[y.path]? ≠ some (d.contribution y)) ∧
    ((∀ calls : List (Store.Call κ), d.held.KeysApart calls → (s₀.runAll calls).graph.Closed) ↔
      d.EndsCarried) := by
  obtain ⟨hproper, -, -, rfl⟩ := Store.restore_eq_ok_iff.mp h
  obtain ⟨owner, howner⟩ := hproper.exists_owner
  have hedge : ∀ calls : List (Store.Call κ), d.held.KeysApart calls →
      ∀ e ∈ (d.store.runAll calls).graph.edgeList, ∀ id : NodeId,
        id = e.source ∨ id = e.target → _ :=
    fun calls hapart e he id hid =>
      have ⟨_, hholds⟩ := (Document.holds_store howner).runAll_of_keysApart hapart
      hproper.hasNode_or_split hholds.keyed hholds.shows he hid
  refine ⟨hedge, fun hclosed x hx e he hlisted => ?_, fun hcarried calls hapart e he => ?_⟩
  · by_contra hnot
    obtain ⟨calls, hapart, hopen⟩ := hproper.exists_not_closed hx he hlisted hnot
    exact hopen (hclosed calls hapart)
  · have hend : ∀ id : NodeId, id = e.source ∨ id = e.target →
        (d.store.runAll calls).graph.hasNode id := by
      intro id hid
      refine (hedge calls hapart e he id hid).resolve_right ?_
      rintro ⟨x, hx, y, hy, e', he', hid', hsource, htarget, hlisted, hnot, -⟩
      have hends := hcarried x hx e' he' (hid' ▸ hlisted)
      rw [hsource, htarget] at hends
      rcases hid with rfl | rfl
      · exact hnot hends.1
      · exact hnot hends.2
    exact ⟨hend e.source (Or.inl rfl), hend e.target (Or.inr rfl)⟩

/-- A document of two files: the first defines a statement and the table that it reads, and one of
them lists the edge. -/
def readingDocument (lister : String) : Document Float where
  format := Document.currentFormat
  version := 1
  nodes := (readingFile "k" "a.sql").nodes
  edges := [readingEdge]
  provenance :=
    [{ key := ⟨"k"⟩, path := "a.sql", nodeIds := [readingEdge.source, readingEdge.target],
       edgeIds := if lister = "a.sql" then [readingEdge.id] else [], placeholders := [],
       lookups := ∅ },
     { key := ⟨"l"⟩, path := "b.sql", nodeIds := [],
       edgeIds := if lister = "b.sql" then [readingEdge.id] else [], placeholders := [],
       lookups := ∅ }]

theorem readingDocument_stays_closed :
    Store.restore (readingDocument "a.sql") = .ok (readingDocument "a.sql").store ∧
    ∀ calls : List (Store.Call Float), (readingDocument "a.sql").held.KeysApart calls →
      ((readingDocument "a.sql").store.runAll calls).graph.Closed :=
  have h : Store.restore (readingDocument "a.sql") = .ok (readingDocument "a.sql").store :=
    Store.restore_of_isOk (by decide +kernel)
  ⟨h, (closed_after_restore_unless_split h).2.mpr (by decide +kernel)⟩

/-- **An entry that lists an edge without its ends**: the document is accepted, and when the file
that defines the ends is removed, the edge stays. -/
theorem readingDocument_leaves_dangling_edge :
    Store.restore (readingDocument "b.sql") = .ok (readingDocument "b.sql").store ∧
    (readingDocument "b.sql").held.KeysApart [.remove "a.sql"] ∧
    ¬((readingDocument "b.sql").store.runAll [.remove "a.sql"]).graph.Closed :=
  ⟨Store.restore_of_isOk (by decide +kernel), by decide +kernel, by decide +kernel⟩

end AppAtlas
