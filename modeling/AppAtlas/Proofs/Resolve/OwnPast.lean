import AppAtlas.Proofs.Store.InOrder
import AppAtlas.Proofs.Store.Recency

/-!
# A file's own past

While a file is resolved, the graph still holds what its previous version contributed.  Of that the
file sees nothing: what it alone defined is hidden, and placeholders and edges are not looked at.
So it is resolved as if its previous version had been removed before, provided that no other file
defines what the previous version did, for then the graph may show the node of either.

Removing a file brings up to date all that it contributed, and takes that from the contributions
held by version.  So this too needs that versions tell files apart.

* `resolve_eq_without_own_version`: a file is resolved as if its previous version were not there.
* `sharedVersion_changes_own_resolution`: two files under one version, and the removal of a third
  changes what that file contributes.
-/

namespace AppAtlas

open Std OrderedMap

variable {κ : Type}

/-- No other path defines a node that the contribution held for a path defines. -/
def Store.DefinesAlone (s : Store κ) (p : String) : Prop :=
  ∀ c ∈ s.ledger.contributionFor? p, ∀ n ∈ c.nodes, ∀ q ∈ s.graph.definersOf n.id, q = p

instance (s : Store κ) (p : String) : Decidable (s.DefinesAlone p) :=
  inferInstanceAs (Decidable (∀ c ∈ s.ledger.contributionFor? p, _))

/-! ### Contributions without one path -/

namespace Contributions

variable {t : Contributions κ} {p : String} {id : NodeId}

theorem Identified.erase (ht : t.Identified) (p : String) : Identified (t.erase p) := fun q c hc =>
  ht q c (getElem?_erase_eq_some.mp hc).2

theorem defining_erase (h : t[p]?.bind (·.node? id) = none) :
    defining (t.erase p) id = t.defining id := by
  refine collect_congr fun q => ?_
  rw [getElem?_erase_of]
  split
  · next hq => rw [← hq, h]; rfl
  · rfl

end Contributions

/-! ### What the previous version defined -/

namespace FindingSet

variable {f : FindingSet κ} {g g' : Graph κ} {id : NodeId}

theorem node?_eq_none_of_own (hg : g.Sound) (hlocal : f.localNodes[id]? = none)
    (h : ∀ q ∈ g.definersOf id, q = f.path) : (f.view g).node? id = none := by
  rw [node?_of_not_local hlocal, Option.filter_eq_none_iff]
  intro n hn hsees
  obtain rfl := (hg id n hn).1
  rw [View.sees, Bool.and_eq_true, List.any_eq_true] at hsees
  obtain ⟨-, q, hq, hne⟩ := hsees
  have hown : q = (f.view g).path := h q hq
  simp [hown] at hne

variable [Confidence κ] {t : Contributions κ}

/-- **A graph looks the same to a file without its previous version**, if no other file defines what
that version does. -/
theorem seesSame_without_own (hg : g.Shows t) (hg' : g'.Shows (t.erase f.path))
    (hsound : g.Sound) (hsound' : g'.Sound) (hsucceeds : g'.Succeeds g) (ht : t.Identified)
    (halone : ∀ c, t[f.path]? = some c → ∀ n ∈ c.nodes,
      ∀ q ∈ g.definersOf n.id, q = f.path) (tieBreak : TieBreak) : f.SeesSame tieBreak g g' := by
  have hnode : ∀ id, (f.view g').node? id = (f.view g).node? id := by
    intro id
    cases hown : t[f.path]?.bind (·.node? id) with
    | none =>
      have hsame : g.SameAt g' id := Graph.sameAt_of_defining_eq hg hg' ht (ht.erase f.path)
        (Contributions.defining_erase hown).symm
      exact hsame.node?_eq hsound hsound' f
    | some n =>
      cases hlocal : f.localNodes[id]? with
      | some m => rw [node?_of_local hlocal, node?_of_local hlocal]
      | none =>
        -- defined by the previous version alone, so hidden before and not defined afterwards
        obtain ⟨c, hc, hn⟩ := Option.bind_eq_some_iff.mp hown
        obtain rfl := Contribution.id_of_node? hn
        have hbefore := halone c hc n (Contribution.mem_of_node? hn)
        have hafter : ∀ q ∈ g'.definersOf n.id, q = f.path := by
          intro q hq
          obtain ⟨d, hd, hsome⟩ := ((hg'.mem_definersOf n.id).2 q).mp hq
          have hd := (Contributions.getElem?_erase_eq_some.mp hd).2
          exact hbefore q (((hg.mem_definersOf n.id).2 q).mpr ⟨d, hd, hsome⟩)
        rw [node?_eq_none_of_own hsound hlocal hbefore, node?_eq_none_of_own hsound' hlocal hafter]
  refine ⟨hnode, fun _ n hlocal hn => ?_⟩
  refine hsucceeds.introduced?_eq (concreteAt_of_node? hlocal hn) ?_
  exact concreteAt_of_node? hlocal ((hnode n.id).trans hn)

end FindingSet

/-- **A file's previous version has no influence on its own resolution.**  Take a store in order in
which no other path defines what the contribution held for a file's path defines.  Then the file can
be removed, and its findings, whatever they are, make the same contribution against the graph with
and without the previous version. -/
theorem resolve_eq_without_own_version [Confidence κ] (o : ResolverOptions κ) (key : FileKey)
    (f : FindingSet κ) {s : Store κ} (hs : s.InOrder) (halone : s.DefinesAlone f.path) :
    ∃ s' : Store κ, s.remove f.path = .ok s' ∧
      o.resolve key f s'.graph = o.resolve key f s.graph := by
  obtain ⟨owner, t, hholds, ht⟩ := hs.holds
  obtain ⟨s', hremove, hholds'⟩ := hholds.remove f.path
  have hcall : (Store.Call.remove f.path).run s = .ok s' := hremove
  have hsound := hs.published.sound
  have hsound' := (Store.Published.call hs.published hcall).sound
  have hsees := FindingSet.seesSame_without_own hholds.shows hholds'.shows hsound hsound'
    (hholds.current.call hcall).2.1 ht
    (fun c hc => halone c ((hholds.records.contributionFor?_eq f.path).trans hc)) o.tieBreak
  exact ⟨s', hremove, ResolverOptions.resolve_eq_of_seesSame hsees hsound hsound' key⟩

/-- A new version of a file with statements: the statement reads a table of another file and one
that only the previous version of the file defines. -/
def rereadFile : FindingSet Float :=
  { path := "p.sql", artifact := .sql
    definitions := [{ kind := .statement, signature := "x", name := "x", lines := ⟨1, 1⟩ }]
    references := [Reference.of .statement "x" .reads (.table "y") 1,
      Reference.of .statement "x" .reads (.table "w") 1] }

/-- The previous version of that file, with a table that another file refers to. -/
def ownTableCalls : List (Store.Call Float) :=
  [.apply { key := ⟨"k"⟩, path := "a.sql", nodes := [Node.bare .table "y" "a.sql" 1] },
    .apply { key := ⟨"m"⟩, path := "p.sql",
             nodes := [Node.bare .statement "x" "p.sql" 1, Node.bare .table "w" "p.sql" 2],
             edges := [readingEdge], placeholders := [Node.stub .table "y" "y"] },
    .apply { key := ⟨"q"⟩, path := "q.sql", placeholders := [Node.stub .table "w" "w"] }]

theorem resolve_rereadFile_eq_without_own_version :
    (Store.afterCalls ownTableCalls).graph.definersOf (NodeId.of .table "w") = ["p.sql"] ∧
    ∃ s' : Store Float, (Store.afterCalls ownTableCalls).remove "p.sql" = .ok s' ∧
      ResolverOptions.standard.resolve ⟨"n"⟩ rereadFile s'.graph =
        ResolverOptions.standard.resolve ⟨"n"⟩ rereadFile (Store.afterCalls ownTableCalls).graph :=
  ⟨by decide +kernel, resolve_eq_without_own_version .standard ⟨"n"⟩ rereadFile
    (Store.inOrder_afterCalls (by decide +kernel)) (by decide +kernel)⟩

/-- A table and a statement that reads it, and another table under the version of the first. -/
def sharedVersionTables : List (Store.Call Float) :=
  [.apply { key := ⟨"k"⟩, path := "a.sql", nodes := [Node.bare .table "y" "a.sql" 1] },
    .apply { key := ⟨"m"⟩, path := "p.sql", nodes := [Node.bare .statement "x" "p.sql" 1],
             edges := [readingEdge], placeholders := [Node.stub .table "y" "y"] },
    .apply { key := ⟨"k"⟩, path := "t.sql", nodes := [Node.bare .table "z" "t.sql" 1] }]

/-- **Two files under one version**: no other file defines the statement, and yet removing its file
takes the table along that the first file defined, so that the statement is resolved otherwise. -/
theorem sharedVersion_changes_own_resolution :
    (∀ call ∈ sharedVersionTables, call.Enters) ∧
    (Store.afterCalls sharedVersionTables).DefinesAlone "p.sql" ∧
    ¬∃ s' : Store Float, (Store.afterCalls sharedVersionTables).remove "p.sql" = .ok s' ∧
      ResolverOptions.standard.resolve ⟨"n"⟩ rereadFile s'.graph =
        ResolverOptions.standard.resolve ⟨"n"⟩ rereadFile
          (Store.afterCalls sharedVersionTables).graph := by
  refine ⟨by decide +kernel, by decide +kernel, ?_⟩
  rintro ⟨s', hremove, hsame⟩
  have hafter : s' = Store.afterCalls (sharedVersionTables ++ [.remove "p.sql"]) := by
    rw [Store.afterCalls_concat]
    show s' = ((Store.afterCalls sharedVersionTables).remove "p.sql").toOption.getD _
    rw [hremove]
    rfl
  rw [hafter] at hsame
  exact absurd hsame (by decide +kernel)

end AppAtlas
