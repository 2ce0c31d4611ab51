import AppAtlas.Proofs.Analysis.Keys
import AppAtlas.Proofs.Store.InOrder

/-!
# Identities that pass from one file to another

The keys that a batch notes are those of the definitions it gives, and those of the nodes that the
graph shows for the definitions it drops.  If several files define one identity, the graph shows the
definition of the first.  When the first file goes, the next one's definition is shown, and its keys
are noted nowhere; when a file comes before the first, the keys of the definition that is no longer
shown are noted nowhere either.

This file shows that nothing else is missed: what stands under a key that is not noted changes
exactly if an identity passes, in one of these two ways, between a file of the batch and one that
the batch leaves.

* `lookup_changes_only_if_noted_or_passed`: what changes under a key is noted, or it passed.
* `passed_route_not_noted`: a route that passes, and is not noted.
-/

namespace AppAtlas

open Std OrderedMap Contributions

variable {κ : Type}

/-! ### The first to define an identity -/

/-- A file is the first, in the order of paths, of those that define an identity, with a node. -/
def FirstDefines (held : String → Option (Contribution κ)) (id : NodeId) (p : String) (n : Node) :
    Prop :=
  ∃ c : Contribution κ, held p = some c ∧ c.node? id = some n ∧
    ∀ (q : String) (d : Contribution κ), held q = some d → (d.node? id).isSome →
      (compare p q).isLE

section First

variable {held held' : String → Option (Contribution κ)} {t : Contributions κ} {id : NodeId}
  {p q : String} {n m : Node}

theorem FirstDefines.id_eq (h : FirstDefines held id p n) : n.id = id := by
  obtain ⟨c, -, hn, -⟩ := h
  exact Contribution.id_of_node? hn

/-- Files that are left alone and come first, the one before and the other after, are the same. -/
theorem FirstDefines.eq_of_left (h : FirstDefines held id p n) (h' : FirstDefines held' id q m)
    (hp : held' p = held p) (hq : held' q = held q) : p = q ∧ n = m := by
  obtain ⟨c, hc, hn, hfirst⟩ := h
  obtain ⟨d, hd, hm, hfirst'⟩ := h'
  have hpq := hfirst q d (hq.symm.trans hd) (Option.isSome_iff_exists.mpr ⟨m, hm⟩)
  have hqp := hfirst' p c (hp.trans hc) (Option.isSome_iff_exists.mpr ⟨n, hn⟩)
  obtain rfl : p = q := LawfulEqCmp.eq_of_compare (OrientedCmp.isLE_antisymm hpq hqp)
  obtain rfl : c = d := Option.some.inj (hc.symm.trans (hq.symm.trans hd))
  exact ⟨rfl, Option.some.inj (hn.symm.trans hm)⟩

theorem node?_eq_some_iff_firstDefines (ht : t.Identified) (hconcrete : n.isConcrete) :
    t.node? id = some n ↔ ∃ p, FirstDefines (fun p => t[p]?) id p n := by
  constructor
  · intro hn
    exact head?_collect_eq_some_iff.mp
      (head?_defining_of_concrete ht hn hconcrete)
  · rintro ⟨p, hp⟩
    rw [node?, defining,
      head?_collect_eq_some_iff.mpr ⟨p, hp⟩, Option.some_or]

theorem exists_firstDefines {c : Contribution κ} (hc : t[p]? = some c) (hn : c.node? id = some n) :
    ∃ q m, FirstDefines (fun p => t[p]?) id q m ∧ t.node? id = some m := by
  cases hhead : (t.defining id).values.head? with
  | none =>
    have hnone := head?_collect_eq_none_iff.mp hhead p c hc
    rw [hn] at hnone
    cases hnone
  | some m =>
    obtain ⟨q, hq⟩ := head?_collect_eq_some_iff.mp hhead
    exact ⟨q, m, hq, by rw [node?, hhead, Option.some_or]⟩

end First

/-! ### Passing -/

/-- **An identity passes under a key** between a file of a batch and one that the batch leaves: one
of the two is the first to define it before, the other one after, and it stands under the key only
as the file that is left defines it. -/
def Passes (before after : String → Option (Contribution κ)) (batch : List String)
    (key : LookupKey) : Prop :=
  ∃ (id : NodeId) (p q : String) (n m : Node),
    FirstDefines before id p n ∧ FirstDefines after id q m ∧
      (p ∉ batch ∧ q ∈ batch ∧ key ∈ n.lookupKeys ∧ key ∉ m.lookupKeys ∨
        p ∈ batch ∧ q ∉ batch ∧ key ∉ n.lookupKeys ∧ key ∈ m.lookupKeys)

namespace Graph.Shows

variable [Confidence κ] {g g' : Graph κ} {t t' : Contributions κ} {key : LookupKey} {n : Node}

theorem mem_lookup (h : g.Shows t) :
    n ∈ g.lookup key ↔ t.node? n.id = some n ∧ key ∈ n.lookupKeys := by
  rw [g.lookup_eq_filter, List.mem_filter, h.mem_nodeList, List.contains_iff_mem, Graph.node?,
    ExtTreeMap.get?_eq_getElem?, h.nodes]

theorem lookup_eq (h : g.Shows t) (h' : g'.Shows t')
    (hmem : ∀ n, n ∈ g.lookup key ↔ n ∈ g'.lookup key) : g.lookup key = g'.lookup key := by
  have hpairwise : ∀ {g : Graph κ} {t : Contributions κ}, g.Shows t →
      (g.lookup key).Pairwise fun a b => compare a.id b.id = .lt := by
    intro g t h
    rw [g.lookup_eq_filter]
    refine (pairwise_values fun id n hn => ?_).filter _
    rw [h.nodes] at hn
    exact Contributions.id_of_node? hn
  exact eq_of_pairwise_key (hpairwise h) (hpairwise h') hmem

theorem mem_lookup_iff_firstDefines (h : g.Shows t) (ht : t.Identified) : n ∈ g.lookup key ↔
      key ∈ n.lookupKeys ∧ ∃ p, FirstDefines (fun p => t[p]?) n.id p n := by
  rw [h.mem_lookup, and_comm]
  refine and_congr_right fun hkey => ?_
  exact node?_eq_some_iff_firstDefines ht (Node.isConcrete_of_mem_lookupKeys hkey)

end Graph.Shows

namespace Analyzer

variable [Confidence κ] {base next : Graph κ} {t : Contributions κ}
  {changed : List (Contribution κ)} {removed : List String} {key : LookupKey} {n : Node}

section NotNoted

variable (hbase : base.Shows t) (hnext : next.Shows (t.after changed removed)) (ht : t.Identified)
  (ht' : (t.after changed removed).Identified) (hkey : key ∉ changedKeys base changed removed)
  (hpass : ¬Passes (fun p => t[p]?) (fun p => (t.after changed removed)[p]?)
    (changed.map (·.path) ++ removed) key)

include hbase hnext ht ht' hkey hpass

/-- **What stands under a key that is not noted stays**, unless its identity passes to a file of the
batch. -/
theorem mem_lookup_after (hn : n ∈ base.lookup key) : n ∈ next.lookup key := by
  obtain ⟨hunder, p, hp⟩ := (hbase.mem_lookup_iff_firstDefines ht).mp hn
  have ⟨c, hc, hcn, _⟩ := hp
  -- the file was left alone, so it defines the identity after the batch as well
  have hleft := not_mem_of_definer hkey hbase hc (Option.isSome_iff_exists.mpr ⟨n, hcn⟩)
    (hbase.mem_lookup.mp hn).1 hunder
  have hsame := after_of_not_mem hleft.1 hleft.2 t
  obtain ⟨q, m, hq, -⟩ := exists_firstDefines (hsame.trans hc) hcn
  by_cases hbatch : q ∈ changed.map (·.path) ++ removed
  · -- the identity passed to a file of the batch, where it stands under other keys
    have hother : key ∉ m.lookupKeys := by
      intro hm
      obtain ⟨d, hd, hdm, -⟩ := hq
      have hleft' := getElem?_of_definer_after hkey hd hdm hm
      exact (List.mem_append.mp hbatch).elim hleft'.1 hleft'.2.1
    refine absurd ⟨n.id, p, q, n, m, hp, hq, .inl ⟨?_, hbatch, hunder, hother⟩⟩ hpass
    exact fun h => (List.mem_append.mp h).elim hleft.1 hleft.2
  · rw [List.mem_append, not_or] at hbatch
    obtain ⟨-, rfl⟩ := hp.eq_of_left hq hsame (after_of_not_mem hbatch.1 hbatch.2 t)
    exact (hnext.mem_lookup_iff_firstDefines ht').mpr ⟨hunder, q, hq⟩

/-- **What stands under a key that is not noted was there before**, unless its identity passed from
a file of the batch. -/
theorem mem_lookup_before (hn : n ∈ next.lookup key) : n ∈ base.lookup key := by
  obtain ⟨hunder, q, hq⟩ := (hnext.mem_lookup_iff_firstDefines ht').mp hn
  have ⟨d, hd, hdn, _⟩ := hq
  -- the file was left alone, so it defined the identity before
  obtain ⟨hchanged, hremoved, hold⟩ := getElem?_of_definer_after hkey hd hdn hunder
  obtain ⟨p, m, hp, hm⟩ := exists_firstDefines hold hdn
  by_cases hbatch : p ∈ changed.map (·.path) ++ removed
  · -- the identity passed from a file of the batch, where it stood under other keys
    have hother : key ∉ m.lookupKeys := by
      intro hm'
      obtain ⟨c, hc, hcm, -⟩ := hp
      exact hkey (mem_changedKeys_of_dropped hbase hbatch hc
        (Option.isSome_iff_exists.mpr ⟨m, hcm⟩) hm hm')
    refine absurd ⟨n.id, p, q, m, n, hp, hq, .inr ⟨hbatch, ?_, hother, hunder⟩⟩ hpass
    exact fun h => (List.mem_append.mp h).elim hchanged hremoved
  · rw [List.mem_append, not_or] at hbatch
    obtain ⟨-, rfl⟩ := hp.eq_of_left hq (after_of_not_mem hbatch.1 hbatch.2 t)
      (after_of_not_mem hchanged hremoved t)
    exact (hbase.mem_lookup_iff_firstDefines ht).mpr ⟨hunder, p, hp⟩

end NotNoted

theorem lookup_ne_of_passes {t' : Contributions κ} {batch : List String} (hbase : base.Shows t)
    (hnext : next.Shows t') (ht : t.Identified) (ht' : t'.Identified)
    (h : Passes (fun p => t[p]?) (fun p => t'[p]?) batch key) :
    base.lookup key ≠ next.lookup key := by
  obtain ⟨id, p, q, n, m, hp, hq, hunder⟩ := h
  have hnid := hp.id_eq
  have hmid := hq.id_eq
  intro heq
  rcases hunder with ⟨-, -, hn, hm⟩ | ⟨-, -, hn, hm⟩
  · have hmem : n ∈ next.lookup key :=
      heq ▸ (hbase.mem_lookup_iff_firstDefines ht).mpr ⟨hn, p, hnid.symm ▸ hp⟩
    obtain ⟨-, q', hq'⟩ := (hnext.mem_lookup_iff_firstDefines ht').mp hmem
    rw [hnid] at hq'
    exact hm ((hq'.eq_of_left hq rfl rfl).2 ▸ hn)
  · have hmem : m ∈ base.lookup key :=
      heq ▸ (hnext.mem_lookup_iff_firstDefines ht').mpr ⟨hm, q, hmid.symm ▸ hq⟩
    obtain ⟨-, p', hp'⟩ := (hbase.mem_lookup_iff_firstDefines ht).mp hmem
    rw [hmid] at hp'
    exact hn ((hp'.eq_of_left hp rfl rfl).2 ▸ hm)

end Analyzer

/-! ### Batches of a store -/

variable [Confidence κ]

/-- **What a batch changes under a key is noted, or it passed.**  Take a store in order and a batch
that is entered, with versions that tell files apart.  If other nodes stand under a key after the
batch, or the same nodes with other contents, the key is noted as changed, or an identity passed
under it between a file of the batch and one that the batch leaves.  And whenever an identity
passes, what stands under the key does change. -/
theorem lookup_changes_only_if_noted_or_passed {s s' : Store κ} (hs : s.InOrder)
    {changed : List (Contribution κ)} {removed : List String} {cancelled : Bool}
    (hkeys : s.TellsApart changed) (h : s.applyChanges changed removed cancelled = .ok s')
    (key : LookupKey) :
    (s.graph.lookup key ≠ s'.graph.lookup key →
      key ∈ Analyzer.changedKeys s.graph changed removed ∨
        Passes s.ledger.contributionFor? s'.ledger.contributionFor?
          (changed.map (·.path) ++ removed) key) ∧
    (Passes s.ledger.contributionFor? s'.ledger.contributionFor?
        (changed.map (·.path) ++ removed) key →
      s.graph.lookup key ≠ s'.graph.lookup key) := by
  obtain ⟨_, t, hholds₀, hidentified⟩ := hs.holds
  obtain ⟨owner, hholds, howner⟩ := hholds₀.exists_owner hkeys
  obtain ⟨hholds', -⟩ := hholds.applyChanges howner h
  have hsound := (Store.refusal?_eq_none_iff.mp (Store.applyChanges_eq h).1).1
  have hidentified' : (t.after changed removed).Identified := fun p c hc =>
    (Contributions.mem_of_after hc).elim (fun hc => (hsound c hc).identified) (hidentified p c)
  have hheld : s.ledger.contributionFor? = fun p => t[p]? :=
    funext hholds.records.contributionFor?_eq
  have hheld' : s'.ledger.contributionFor? = fun p => (t.after changed removed)[p]? :=
    funext hholds'.records.contributionFor?_eq
  rw [hheld, hheld']
  refine ⟨fun hne => ?_, Analyzer.lookup_ne_of_passes hholds.shows hholds'.shows hidentified
    hidentified'⟩
  by_contra hnone
  rw [not_or] at hnone
  refine hne (hholds.shows.lookup_eq hholds'.shows fun n => ⟨?_, ?_⟩)
  · exact Analyzer.mem_lookup_after hholds.shows hholds'.shows hidentified hidentified' hnone.1
      hnone.2
  · exact Analyzer.mem_lookup_before hholds.shows hholds'.shows hidentified hidentified' hnone.1
      hnone.2

def handlerFile (path route : String) : Contribution Float where
  key := ⟨path⟩
  path := path
  nodes := [{ Node.bare .controllerMethod "app.C.m/0" path 1 with
    attributes := ExtTreeMap.ofList [(Node.routesKey, route)] }]

/-- Two files that define one method, with different routes, and the removal of the first. -/
def twoHandlers : List (Store.Call Float) :=
  [.apply (handlerFile "b.java" "/y"), .apply (handlerFile "a.java" "/x"), .remove "a.java"]

theorem twoHandlers_route_passes :
    Contributions.KeysApart ∅ (twoHandlers.take 2) ∧
    (Store.afterCalls (twoHandlers.take 2)).applyChanges [] ["a.java"] =
      .ok (Store.afterCalls twoHandlers) ∧
    Passes (Store.afterCalls (twoHandlers.take 2)).ledger.contributionFor?
      (Store.afterCalls twoHandlers).ledger.contributionFor? ["a.java"] (.route "/y") := by
  have hapart : Contributions.KeysApart ∅ (twoHandlers.take 2) := by decide +kernel
  have hremove : (Store.afterCalls (twoHandlers.take 2)).applyChanges [] ["a.java"] =
      .ok (Store.afterCalls twoHandlers) := by
    have hlast : Store.afterCalls twoHandlers =
      (Store.Call.remove "a.java").act.leaves (Store.afterCalls (twoHandlers.take 2)) := rfl
    rw [hlast, Store.Call.leaves_act, Store.Call.run, Store.remove, Store.applyChanges_eq_elim]
    rfl
  refine ⟨hapart, hremove, ?_⟩
  have hchanges := (lookup_changes_only_if_noted_or_passed (Store.inOrder_afterCalls hapart)
    (by decide +kernel) hremove (.route "/y")).1
  rcases hchanges (by decide +kernel) with hnoted | hpasses
  · exact absurd hnoted (by decide +kernel)
  · exact hpasses

/-- **A route that passes is not noted.**  The first file comes in beside the other one, and the
route of the other one disappears; then it is removed, and the route is there again.  Neither time
is the route among the keys that the batch notes. -/
theorem passed_route_not_noted :
    (∀ call ∈ twoHandlers, call.Enters) ∧
    (Store.afterCalls (twoHandlers.take 1)).graph.lookup (.route "/y") ≠
      (Store.afterCalls (twoHandlers.take 2)).graph.lookup (.route "/y") ∧
    .route "/y" ∉ Analyzer.changedKeys (Store.afterCalls (twoHandlers.take 1)).graph
      [handlerFile "a.java" "/x"] [] ∧
    (Store.afterCalls (twoHandlers.take 2)).graph.lookup (.route "/y") ≠
      (Store.afterCalls twoHandlers).graph.lookup (.route "/y") ∧
    .route "/y" ∉ Analyzer.changedKeys (Store.afterCalls (twoHandlers.take 2)).graph
      [] ["a.java"] := by
  decide +kernel

end AppAtlas
