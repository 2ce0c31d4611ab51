import AppAtlas.Analysis.Analyzer
import AppAtlas.Proofs.Resolve.Definitions

/-!
# The keys of what a batch changes

A batch notes the keys of all definitions that it adds, replaces or drops.  Under a key that it does
not note, a file sees the same nodes before the batch and after it.  This needs that files that
define one identity give it the same keys: the graph holds the definition of the first path only, so
if it goes, another file's definition with other keys would take its place unnoticed.

* `Analyzer.defining_eq_of_not_changed`: what stands under a key that is not noted is defined by the
  same files as before.
* `Analyzer.agreeUnder_of_not_changed`: so nothing changes under such a key.
-/

namespace AppAtlas

open List Std OrderedMap

variable {κ : Type}

/-- **Files that define one identity give it the same keys.** -/
def Contributions.Coherent (t : Contributions κ) : Prop :=
  ∀ (p q : String) (c d : Contribution κ) (id : NodeId) (n m : Node), t[p]? = some c →
    t[q]? = some d → c.node? id = some n → d.node? id = some m → n.lookupKeys = m.lookupKeys

theorem Contributions.SameDefinitions.coherent {t t' : Contributions κ} (h : t.SameDefinitions t')
    (ht' : t'.Coherent) : t.Coherent := by
  -- each contribution has one with the same definitions on the other side
  have hother : ∀ {p : String} {c : Contribution κ}, t[p]? = some c →
      ∃ d, t'[p]? = some d ∧ d.nodes = c.nodes := by
    intro p c hc
    have hp := h p
    rw [hc, Option.map_some, eq_comm, Option.map_eq_some_iff] at hp
    exact hp
  intro p q c d id n m hc hd hn hm
  obtain ⟨c', hc', hcn⟩ := hother hc
  obtain ⟨d', hd', hdn⟩ := hother hd
  refine ht' p q c' d' id n m hc' hd' ?_ ?_
  · rw [Contribution.node?, hcn]
    exact hn
  · rw [Contribution.node?, hdn]
    exact hm

/-! ### Paths that a batch leaves -/

namespace Analyzer

variable [Confidence κ] {base next : Graph κ} {t : Contributions κ}
  {changed : List (Contribution κ)} {removed : List String} {key : LookupKey} {id : NodeId}
  {n m : Node} {p : String} {c : Contribution κ}

omit [Confidence κ] in
theorem mem_changedKeys_of_added (hc : c ∈ changed) (hn : n ∈ c.nodes) (hkey : key ∈ n.lookupKeys) :
    key ∈ changedKeys base changed removed := by
  rw [changedKeys, ExtTreeSet.mem_ofList, contains_iff_mem, mem_append]
  exact .inl (mem_flatMap.mpr ⟨c, hc, mem_flatMap.mpr ⟨n, hn, hkey⟩⟩)

theorem mem_changedKeys_of_dropped (hbase : base.Shows t)
    (hp : p ∈ changed.map (·.path) ++ removed) (hc : t[p]? = some c) (hid : (c.node? id).isSome)
    (hn : t.node? id = some n) (hkey : key ∈ n.lookupKeys) :
    key ∈ changedKeys base changed removed := by
  rw [changedKeys, ExtTreeSet.mem_ofList, contains_iff_mem, mem_append]
  refine .inr (mem_flatMap.mpr ⟨p, hp, mem_flatMap.mpr ⟨n, ?_, hkey⟩⟩)
  rw [hbase.provenanceAt?_eq, hc]
  refine mem_filterMap.mpr ⟨id, ?_, ?_⟩
  · show id ∈ sortedSet (c.nodes.map (·.id))
    rw [mem_sortedSet]
    exact Contribution.mem_nodes_iff.mpr hid
  · rw [Graph.node?, ExtTreeMap.get?_eq_getElem?, hbase.nodes, hn]

omit [Confidence κ] in
theorem mem_dependentsOf {g : Graph κ} {keys : LookupKeys} {v : Provenance} :
    v ∈ g.dependentsOf keys ↔
      (∃ key : FileKey, g.provenance[key]? = some v) ∧ ∃ k ∈ v.lookups, k ∈ keys := by
  simp only [Graph.dependentsOf, mem_filter, mem_values, any_eq_true,
    ExtTreeSet.mem_toList, ExtTreeSet.contains_iff_mem]

omit [Confidence κ] in
theorem mem_dependents_iff {g : Graph κ} {keys : LookupKeys} {batch : List String} :
    p ∈ dependents g keys batch ↔ p ∉ batch ∧ ∃ v ∈ g.dependentsOf keys, v.path = p := by
  rw [dependents, mem_sortedSet, mem_filter, mem_map, Bool.not_eq_true',
    ← Bool.not_eq_true, contains_iff_mem, and_comm]

/-- The dependents of keys are the paths outside the batch that looked up one of them. -/
theorem mem_dependents {owner : FileKey → String} {keys : LookupKeys} {batch : List String}
    (hbase : base.Shows t) (hkeyed : t.Keyed owner) : p ∈ dependents base keys batch ↔
      p ∉ batch ∧ ∃ c : Contribution κ, t[p]? = some c ∧ ∃ k ∈ c.lookups, k ∈ keys := by
  rw [mem_dependents_iff]
  refine and_congr_right fun _ => ⟨?_, ?_⟩
  · rintro ⟨v, hv, rfl⟩
    obtain ⟨⟨key, hv⟩, hlookup⟩ := mem_dependentsOf.mp hv
    obtain ⟨q, c, hc, -, rfl⟩ := (hbase.provenance key v).mp hv
    have hpath : c.provenance.path = q := (hkeyed q c hc).1
    rw [hpath]
    exact ⟨c, hc, hlookup⟩
  · rintro ⟨c, hc, hlookup⟩
    have hv := (hbase.provenance c.key _).mpr ⟨p, c, hc, rfl, rfl⟩
    exact ⟨c.provenance, mem_dependentsOf.mpr ⟨⟨c.key, hv⟩, hlookup⟩, (hkeyed p c hc).1⟩

/-! ### Keys that a batch does not note -/

section NotChanged

variable (hkey : key ∉ changedKeys base changed removed)

include hkey

theorem not_mem_of_definer (hbase : base.Shows t) (hc : t[p]? = some c) (hid : (c.node? id).isSome)
    (hn : t.node? id = some n) (hn' : key ∈ n.lookupKeys) :
    p ∉ changed.map (·.path) ∧ p ∉ removed := by
  rw [← not_or, ← mem_append]
  exact fun hp => hkey (mem_changedKeys_of_dropped hbase hp hc hid hn hn')

omit [Confidence κ] in
theorem getElem?_of_definer_after (hc : (t.after changed removed)[p]? = some c)
    (hm : c.node? id = some m) (hm' : key ∈ m.lookupKeys) :
    p ∉ changed.map (·.path) ∧ p ∉ removed ∧ t[p]? = some c := by
  rcases Contributions.after_cases hc with hc | hleft
  · exact absurd (mem_changedKeys_of_added hc (Contribution.mem_of_node? hm) hm') hkey
  · exact hleft

/-- **What stands under a key that is not noted, before or after the batch, is defined by the same
files.** -/
theorem defining_eq_of_not_changed (hbase : base.Shows t) (ht : t.Identified)
    (ht' : (t.after changed removed).Identified) (hcoherent : t.Coherent)
    (hcoherent' : (t.after changed removed).Coherent)
    (hn : t.node? id = some n ∨ (t.after changed removed).node? id = some n)
    (hn' : key ∈ n.lookupKeys) : t.defining id = (t.after changed removed).defining id := by
  have hconcrete := Node.isConcrete_of_mem_lookupKeys hn'
  -- in either case some file defines the identity under the key and is left alone
  have hfirst : ∃ (p : String) (c : Contribution κ) (m : Node), t[p]? = some c ∧
      (t.after changed removed)[p]? = some c ∧ c.node? id = some m ∧ key ∈ m.lookupKeys := by
    rcases hn with hn | hn
    · obtain ⟨p, c, hc, hm⟩ := Contributions.exists_definer_of_concrete ht hn hconcrete
      obtain ⟨hchanged, hremoved⟩ :=
        not_mem_of_definer hkey hbase hc (Option.isSome_iff_exists.mpr ⟨n, hm⟩) hn hn'
      exact ⟨p, c, n, hc, by rw [Contributions.after_of_not_mem hchanged hremoved t, hc], hm, hn'⟩
    · obtain ⟨p, c, hc, hm⟩ := Contributions.exists_definer_of_concrete ht' hn hconcrete
      obtain ⟨-, -, hold⟩ := getElem?_of_definer_after hkey hc hm hn'
      exact ⟨p, c, n, hold, hc, hm, hn'⟩
  obtain ⟨p, c, m, hc, hc', hm, hm'⟩ := hfirst
  -- so the graph has the identity under the key, and so has every file after the batch
  obtain ⟨b, q, d, hb, hd, hdb⟩ := Contributions.exists_node?_of_definer hc hm
  have hb' : key ∈ b.lookupKeys := by
    rw [hcoherent q p d c id b m hd hc hdb hm]
    exact hm'
  refine Contributions.collect_congr fun r => ?_
  by_cases hr : r ∉ changed.map (·.path) ∧ r ∉ removed
  · rw [Contributions.after_of_not_mem hr.1 hr.2]
  · have hbefore : t[r]?.bind (·.node? id) = none := by
      rw [Option.bind_eq_none_iff]
      intro e he
      rw [← Option.not_isSome_iff_eq_none]
      exact fun hsome => hr (not_mem_of_definer hkey hbase he hsome hb hb')
    have hafter : (t.after changed removed)[r]?.bind (·.node? id) = none := by
      rw [Option.bind_eq_none_iff]
      intro e he
      cases hx : e.node? id with
      | none => rfl
      | some x =>
        have hx' : key ∈ x.lookupKeys := by
          rw [hcoherent' r p e c id x m he hc' hx hm]
          exact hm'
        obtain ⟨hchanged, hremoved, -⟩ := getElem?_of_definer_after hkey he hx hx'
        exact absurd ⟨hchanged, hremoved⟩ hr
    rw [hbefore, hafter]

/-- **Under a key that a batch does not note, a file sees the same before and after it.** -/
theorem agreeUnder_of_not_changed (hbase : base.Shows t)
    (hnext : next.Shows (t.after changed removed))
    (hsound : base.Sound) (hsound' : next.Sound) (hsucceeds : next.Succeeds base)
    (ht : t.Identified) (ht' : (t.after changed removed).Identified) (hcoherent : t.Coherent)
    (hcoherent' : (t.after changed removed).Coherent) (f : FindingSet κ) (tieBreak : TieBreak) :
    f.AgreeUnder tieBreak base next key := by
  have hsame : ∀ n : Node, key ∈ n.lookupKeys →
      (base.nodes[n.id]? = some n ∨ next.nodes[n.id]? = some n) → base.SameAt next n.id := by
    intro n hn' hn
    rw [hbase.nodes, hnext.nodes] at hn
    exact Graph.sameAt_of_defining_eq hbase hnext ht ht'
      (defining_eq_of_not_changed hkey hbase ht ht' hcoherent hcoherent' hn hn')
  refine ⟨fun n => ⟨fun hn => ?_, fun hn => ?_⟩, fun _ n hn => ?_⟩
  · obtain ⟨hnode, hn', -⟩ := (FindingSet.mem_visible hsound).mp hn
    exact (hsame n hn' (.inl hnode)).mem_visible hsound hsound' hn
  · obtain ⟨hnode, hn', -⟩ := (FindingSet.mem_visible hsound').mp hn
    exact (hsame n hn' (.inr hnode)).symm.mem_visible hsound' hsound hn
  · obtain ⟨hnode, hn', -⟩ := (FindingSet.mem_visible hsound).mp hn
    have hconcrete : base.concreteAt n.id := by
      rw [Graph.concreteAt, hnode]
      exact Node.isConcrete_of_mem_lookupKeys hn'
    exact hsucceeds.introduced?_eq hconcrete
      ((hsame n hn' (.inl hnode)).concreteAt_eq ▸ hconcrete)

end NotChanged

end Analyzer

end AppAtlas
