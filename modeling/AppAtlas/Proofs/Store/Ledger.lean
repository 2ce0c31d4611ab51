import AppAtlas.Proofs.Store.Contributions
import AppAtlas.Store.Ledger
import Mathlib.Data.List.Basic

/-!
# The ledger keeps the contributions in force

The ledger spreads contributions over five maps: contributions by key, keys by path, and for nodes,
placeholders and edges the owners of each identity.  `Ledger.Records` says that the five maps are
those of one map of contributions.  Entering a contribution for a free path inserts it
(`Records.attach`), taking a path out erases it (`Records.detach`), and what the ledger makes of an
identity is what the contributions make of it (`Records.node?_eq`, `Records.edge?_eq`).

The three maps of owners are kept in one way, so `Owners.Tracks` has the list of identities that a
contribution owns as a parameter.
-/

namespace AppAtlas

open Std OrderedMap

variable {κ : Type}

/-! ### Owners -/

namespace Owners

variable {α : Type} [Ord α] [TransOrd α]

/-- The paths that contribute to an identity, each with the version of its file. -/
def holders (o : Owners α) (id : α) : ExtTreeMap String FileKey compare := o[id]?.getD ∅

theorem keysOf_eq_values (o : Owners α) (id : α) : o.keysOf id = (o.holders id).values := by
  rw [keysOf, holders, ExtTreeMap.get?_eq_getElem?]
  cases o[id]? with
  | none => exact values_empty.symm
  | some held => rfl

theorem pathsOf_eq_keys (o : Owners α) (id : α) :
    o.pathsOf id = ExtTreeSet.ofList (o.holders id).keys compare := by
  rw [pathsOf, holders, ExtTreeMap.get?_eq_getElem?]
  cases o[id]? with
  | none => rw [Option.getD_none, ExtTreeMap.keys_eq_nil_iff.mpr rfl]; rfl
  | some held => rfl

variable [DecidableEq α] [LawfulEqOrd α]

theorem holders_own (o : Owners α) (p : String) (k : FileKey) (i id : α) :
    (o.own p k i).holders id = if i = id then (o.holders id).insert p k else o.holders id := by
  rw [own, holders, holders, getElem?_alter_of]
  split
  · next h => subst h; rfl
  · rfl

theorem holders_disown (o : Owners α) (p : String) (i id : α) :
    (o.disown p i).holders id = if i = id then (o.holders id).erase p else o.holders id := by
  rw [disown, holders, holders, getElem?_alter_of]
  split
  · next h =>
    subst h
    cases o[i]? with
    | none => rw [Option.getD_none, ExtTreeMap.erase_empty]; rfl
    | some held =>
      simp only [Option.bind_some, Option.getD_some]
      split
      · next he => rw [Option.getD_none, ExtTreeMap.isEmpty_iff.mp he]
      · rfl
  · rfl

theorem insert_insert_self (m : ExtTreeMap String FileKey compare) (p : String) (k : FileKey) :
    (m.insert p k).insert p k = m.insert p k := by
  apply ExtTreeMap.ext_getElem?
  intro q
  rw [getElem?_insert_of, getElem?_insert_of]
  split <;> rfl

theorem erase_erase_self (m : ExtTreeMap String FileKey compare) (p : String) :
    (m.erase p).erase p = m.erase p := by
  apply ExtTreeMap.ext_getElem?
  intro q
  rw [getElem?_erase_of, getElem?_erase_of]
  split <;> rfl

theorem holders_foldl_own (ids : List α) (o : Owners α) (p : String) (k : FileKey) (id : α) :
    (ids.foldl (·.own p k) o).holders id =
      if id ∈ ids then (o.holders id).insert p k else o.holders id :=
  foldl_of_step holders (fun _ held => held.insert p k) (fun _ held => insert_insert_self held p k)
    (fun o => holders_own o p k) ids o id

theorem holders_foldl_disown (ids : List α) (o : Owners α) (p : String) (id : α) :
    (ids.foldl (·.disown p) o).holders id =
      if id ∈ ids then (o.holders id).erase p else o.holders id :=
  foldl_of_step holders (fun _ held => held.erase p) (fun _ held => erase_erase_self held p)
    (fun o => holders_disown o p) ids o id

/-- **Owners track contributions** if an identity is owned by exactly the paths whose contribution
has it among its identities `ids`, each with the key of that contribution. -/
def Tracks (o : Owners α) (t : Contributions κ) (ids : Contribution κ → List α) : Prop :=
  ∀ id : α, o.holders id = t.collect fun c => if id ∈ ids c then some c.key else none

variable {o : Owners α} {t : Contributions κ} {ids : Contribution κ → List α}

omit [LawfulEqOrd α] in
theorem tracks_empty : Tracks (∅ : Owners α) (∅ : Contributions κ) ids := by
  intro id
  rw [holders, ExtTreeMap.getElem?_empty, Option.getD_none, eq_comm,
    Contributions.collect_eq_empty_iff]
  intro p c hc
  rw [ExtTreeMap.getElem?_empty] at hc
  cases hc

theorem Tracks.own (h : o.Tracks t ids) (c : Contribution κ) (hfree : t[c.path]? = none) :
    Tracks ((ids c).foldl (·.own c.path c.key) o) (t.insert c.path c) ids := by
  intro id
  apply ExtTreeMap.ext_getElem?
  intro p
  rw [holders_foldl_own, h id, Contributions.getElem?_collect, getElem?_insert_of]
  by_cases hp : c.path = p
  · subst hp
    rw [if_pos rfl, Option.bind_some]
    split
    · rw [getElem?_insert_of, if_pos rfl]
    · rw [Contributions.getElem?_collect, hfree, Option.bind_none]
  · rw [if_neg hp]
    split
    · rw [getElem?_insert_of, if_neg hp, Contributions.getElem?_collect]
    · rw [Contributions.getElem?_collect]

theorem Tracks.disown (h : o.Tracks t ids) {p : String} {c : Contribution κ}
    (hc : t[p]? = some c) : Tracks ((ids c).foldl (·.disown p) o) (t.erase p) ids := by
  intro id
  apply ExtTreeMap.ext_getElem?
  intro q
  rw [holders_foldl_disown, h id, Contributions.getElem?_collect, getElem?_erase_of]
  by_cases hq : p = q
  · subst hq
    rw [if_pos rfl, Option.bind_none]
    split
    · rw [getElem?_erase_of, if_pos rfl]
    · next hid => rw [Contributions.getElem?_collect, hc, Option.bind_some, if_neg hid]
  · rw [if_neg hq]
    split
    · rw [getElem?_erase_of, if_neg hq, Contributions.getElem?_collect]
    · rw [Contributions.getElem?_collect]

end Owners

/-! ### The ledger -/

/-- **The ledger records contributions** if its maps are those of the contributions. -/
structure Ledger.Records (l : Ledger κ) (t : Contributions κ) : Prop where
  paths : ∀ p : String, l.paths[p]? = t[p]?.map (·.key)
  held : ∀ (p : String) (c : Contribution κ), t[p]? = some c → l.contributions[c.key]? = some c
  known : ∀ (k : FileKey) (c : Contribution κ), l.contributions[k]? = some c →
    c.key = k ∧ t[c.path]? = some c
  nodeOwners : l.nodeOwners.Tracks t fun c => c.nodes.map (·.id)
  placeholderOwners : l.placeholderOwners.Tracks t fun c => c.placeholders.map (·.id)
  edgeOwners : l.edgeOwners.Tracks t fun c => c.edges.map (·.id)

namespace Ledger

variable {l : Ledger κ} {t : Contributions κ} {owner : FileKey → String}

theorem records_empty (v : Nat) : (empty v : Ledger κ).Records ∅ where
  paths p := by
    rw [show (empty v : Ledger κ).paths = ∅ from rfl, ExtTreeMap.getElem?_empty,
      ExtTreeMap.getElem?_empty, Option.map_none]
  held p c hc := by
    rw [ExtTreeMap.getElem?_empty] at hc
    cases hc
  known k c hc := by
    rw [show (empty v : Ledger κ).contributions = ∅ from rfl, ExtTreeMap.getElem?_empty] at hc
    cases hc
  nodeOwners := Owners.tracks_empty
  placeholderOwners := Owners.tracks_empty
  edgeOwners := Owners.tracks_empty

theorem Records.getElem?_contributions (h : l.Records t) {k : FileKey} {c : Contribution κ} :
    l.contributions[k]? = some c ↔ c.key = k ∧ t[c.path]? = some c := by
  refine ⟨h.known k c, ?_⟩
  rintro ⟨rfl, hc⟩
  exact h.held _ c hc

theorem Records.contributionFor?_eq (h : l.Records t) (p : String) :
    l.contributionFor? p = t[p]? := by
  rw [contributionFor?, ExtTreeMap.get?_eq_getElem?, h.paths p]
  cases hc : t[p]? with
  | none => rfl
  | some c => exact h.held p c hc

theorem Records.attach (h : l.Records t) (hk : t.Keyed owner) {c : Contribution κ}
    (hc : owner c.key = c.path) (hfree : t[c.path]? = none) :
    (l.attach c).Records (t.insert c.path c) where
  paths p := by
    show (l.paths.insert c.path c.key)[p]? = _
    rw [getElem?_insert_of, getElem?_insert_of, h.paths p]
    split <;> rfl
  held p c' hc' := by
    show (l.contributions.insert c.key c)[c'.key]? = some c'
    rw [getElem?_insert_of] at hc' ⊢
    split at hc'
    · rw [hc', if_pos (by rw [Option.some.inj hc'])]
    · next hp =>
      -- no other path has a contribution of this key
      rw [if_neg (fun he => hp (by rw [← (hk p c' hc').2, ← he, hc])), h.held p c' hc']
  known k c' hc' := by
    change (l.contributions.insert c.key c)[k]? = some c' at hc'
    rw [getElem?_insert_of] at hc'
    split at hc'
    · next hck =>
      cases hc'
      exact ⟨hck, by rw [getElem?_insert_of, if_pos rfl]⟩
    · obtain ⟨hck, hin⟩ := h.known k c' hc'
      refine ⟨hck, ?_⟩
      rw [getElem?_insert_of, if_neg, hin]
      intro he
      rw [← he, hfree] at hin
      cases hin
  nodeOwners := h.nodeOwners.own c hfree
  placeholderOwners := h.placeholderOwners.own c hfree
  edgeOwners := h.edgeOwners.own c hfree

theorem erase_of_getElem?_none {p : String} (hp : t[p]? = none) : t.erase p = t := by
  apply ExtTreeMap.ext_getElem?
  intro q
  rw [getElem?_erase_of]
  split
  · next he => rw [← he, hp]
  · rfl

/-- **Taking a path out of the ledger** erases its contribution and gives it back. -/
theorem Records.detach (h : l.Records t) (hk : t.Keyed owner) (p : String) :
    (l.detach p).1.Records (t.erase p) ∧ (l.detach p).2 = t[p]? ∧
      (l.detach p).1.version = l.version := by
  have hpath := h.paths p
  cases hc : t[p]? with
  | none =>
    rw [hc, Option.map_none] at hpath
    have hd : l.detach p = (l, none) := by
      rw [Ledger.detach, ExtTreeMap.get?_eq_getElem?, hpath]
    rw [hd, erase_of_getElem?_none hc]
    exact ⟨h, rfl, rfl⟩
  | some c =>
    rw [hc, Option.map_some] at hpath
    have hheld := h.held p c hc
    unfold Ledger.detach
    simp only [ExtTreeMap.get?_eq_getElem?, hpath, hheld]
    refine ⟨?_, trivial, trivial⟩
    exact {
      paths := fun q => by
        show (l.paths.erase p)[q]? = _
        rw [getElem?_erase_of, getElem?_erase_of, h.paths q]
        split <;> rfl
      held := fun q c' hc' => by
        show (l.contributions.erase c.key)[c'.key]? = some c'
        rw [getElem?_erase_of] at hc' ⊢
        split at hc'
        · cases hc'
        · next hq =>
          rw [if_neg (fun he => hq (hk.eq_of_key hc hc' he).1), h.held q c' hc']
      known := fun k c' hc' => by
        change (l.contributions.erase c.key)[k]? = some c' at hc'
        rw [getElem?_erase_of] at hc'
        split at hc'
        · cases hc'
        · next hk' =>
          obtain ⟨hck, hin⟩ := h.known k c' hc'
          refine ⟨hck, ?_⟩
          rw [getElem?_erase_of, if_neg, hin]
          intro he
          rw [← he, hc] at hin
          cases hin
          exact hk' hck
      nodeOwners := h.nodeOwners.disown hc
      placeholderOwners := h.placeholderOwners.disown hc
      edgeOwners := h.edgeOwners.disown hc }

/-! ### What the ledger makes -/

/-- What the owners of an identity say about it is what the contributions say. -/
theorem Records.filterMap_keysOf {α β : Type} [DecidableEq α] [Ord α] [TransOrd α] [LawfulEqOrd α]
    (h : l.Records t) {o : Owners α} {ids : Contribution κ → List α} (ho : o.Tracks t ids)
    {id : α} {f : Contribution κ → Option β} (hf : ∀ c, (f c).isSome → id ∈ ids c) :
    (o.keysOf id).filterMap (fun k => (l.contributions.get? k).bind f) = (t.collect f).values := by
  rw [Owners.keysOf_eq_values, ho id, Contributions.values_collect, Contributions.values_collect,
    List.filterMap_filterMap]
  apply List.filterMap_congr
  rintro ⟨p, c⟩ hpc
  have hheld := h.held p c (ExtTreeMap.mem_toList_iff_getElem?_eq_some.mp hpc)
  split
  · rw [Option.bind_some, ExtTreeMap.get?_eq_getElem?, hheld, Option.bind_some]
  · next hid =>
    rw [Option.bind_none]
    cases hfc : f c with
    | none => rfl
    | some b => exact absurd (hf c (by rw [hfc]; rfl)) hid

theorem Records.node?_eq (h : l.Records t) (id : NodeId) : l.node? id = t.node? id := by
  rw [node?, Option.orElse_eq_orElse, Option.orElse_eq_or, ← List.head?_filterMap,
    ← List.head?_filterMap,
    h.filterMap_keysOf h.nodeOwners (fun c hc => Contribution.mem_nodes_iff.mpr hc),
    h.filterMap_keysOf h.placeholderOwners (fun c hc => Contribution.mem_placeholders_iff.mpr hc)]
  rfl

theorem Records.edge?_eq [Confidence κ] (h : l.Records t) (id : EdgeId) :
    l.edge? id = t.edge? id := by
  rw [edge?, edgeParts,
    h.filterMap_keysOf h.edgeOwners (fun c hc => Contribution.mem_edges_iff.mpr hc)]
  rfl

theorem Records.pathsOf_eq (h : l.Records t) (id : NodeId) :
    l.nodeOwners.pathsOf id = ExtTreeSet.ofList (t.defining id).keys compare := by
  rw [Owners.pathsOf_eq_keys, h.nodeOwners id]
  -- the two maps have the same keys, so they have the same list of keys
  have hmap : (t.collect fun c => if id ∈ c.nodes.map (·.id) then some c.key else none).map
        (fun _ _ => ()) = (t.defining id).map fun _ _ => () := by
    apply ExtTreeMap.ext_getElem?
    intro p
    rw [ExtTreeMap.getElem?_map, ExtTreeMap.getElem?_map, Contributions.getElem?_collect,
      Contributions.defining, Contributions.getElem?_collect]
    cases t[p]? with
    | none => rfl
    | some c =>
      simp only [Option.bind_some, Contribution.mem_nodes_iff]
      cases c.node? id <;> rfl
  rw [← ExtTreeMap.keys_map (f := fun _ _ => ()), hmap, ExtTreeMap.keys_map]

end Ledger

end AppAtlas
