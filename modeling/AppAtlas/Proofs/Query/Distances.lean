import AppAtlas.Proofs.OrderedMap
import AppAtlas.Query.Filter
import Mathlib.Data.Nat.Find

/-!
# Hop counts

Nodes are reached round by round, each round going one hop further from the nodes reached last.
What is known after a number of rounds are the nodes within that many hops, each at the fewest hops
in which it is reached.

* `Reaches`: a node is reached from some nodes in a number of hops.
* `IsDistance`: the fewest hops.
* `getElem?_distancesFrom`: the distances found are the fewest hops, up to the bound.
-/

namespace AppAtlas

open Std OrderedMap

variable {next : NodeId → List NodeId} {starts frontier : List NodeId} {u v : NodeId} {d d' : Nat}

inductive Reaches (next : NodeId → List NodeId) (starts : List NodeId) : Nat → NodeId → Prop
  | start {v : NodeId} (h : v ∈ starts) : Reaches next starts 0 v
  | hop {d : Nat} {u v : NodeId} (hu : Reaches next starts d u) (hv : v ∈ next u) :
    Reaches next starts (d + 1) v

/-- **The distance of a node**: the fewest hops in which it is reached. -/
def IsDistance (next : NodeId → List NodeId) (starts : List NodeId) (v : NodeId) (d : Nat) : Prop :=
  Reaches next starts d v ∧ ∀ d' : Nat, Reaches next starts d' v → d ≤ d'

namespace IsDistance

theorem unique (h : IsDistance next starts v d) (h' : IsDistance next starts v d') : d = d' :=
  Nat.le_antisymm (h.2 d' h'.1) (h'.2 d h.1)

theorem exists_of_reaches (h : Reaches next starts d v) :
    ∃ d' ≤ d, IsDistance next starts v d' := by
  classical
  have hsome : ∃ d, Reaches next starts d v := ⟨d, h⟩
  exact ⟨Nat.find hsome, Nat.find_min' hsome h, Nat.find_spec hsome,
    fun _ h' => Nat.find_min' hsome h'⟩

theorem exists_pred (h : IsDistance next starts v (d + 1)) :
    ∃ u, IsDistance next starts u d ∧ v ∈ next u := by
  obtain ⟨hreaches, hleast⟩ := h
  cases hreaches with
  | hop hu hv =>
    refine ⟨_, ⟨hu, fun d' hu' => ?_⟩, hv⟩
    have := hleast (d' + 1) (.hop hu' hv)
    omega

theorem zero_iff : IsDistance next starts v 0 ↔ v ∈ starts := by
  constructor
  · rintro ⟨hreaches, -⟩
    cases hreaches with
    | start h => exact h
  · exact fun h => ⟨.start h, fun d' _ => Nat.zero_le d'⟩

end IsDistance

/-- **A search up to a distance**: all nodes within the distance have been seen, and the frontier is
the nodes at the distance. -/
structure Spread (next : NodeId → List NodeId) (starts : List NodeId) (k : Nat) (seen : Distances)
    (frontier : List NodeId) : Prop where
  seen : ∀ (v : NodeId) (d : Nat), seen[v]? = some d ↔ d ≤ k ∧ IsDistance next starts v d
  frontier : ∀ v : NodeId, v ∈ frontier ↔ IsDistance next starts v k

namespace Spread

variable {k : Nat} {seen : Distances}

theorem start (next : NodeId → List NodeId) (starts : List NodeId) :
    Spread next starts 0 (ExtTreeMap.ofList (starts.map fun id => (id, 0)) compare) starts where
  seen v d := by
    rw [ExtTreeMap.ofList_eq_insertMany_empty, getElem?_insertMany_const]
    constructor
    · intro h
      split at h
      · next hv =>
        cases h
        exact ⟨Nat.le_refl 0, IsDistance.zero_iff.mpr hv⟩
      · cases h
    · rintro ⟨hd, hdistance⟩
      obtain rfl := Nat.le_zero.mp hd
      rw [if_pos (IsDistance.zero_iff.mp hdistance)]
  frontier v := IsDistance.zero_iff.symm

section

variable (h : Spread next starts k seen frontier)

include h

theorem mem_newNodes : v ∈ newNodes next seen frontier ↔ IsDistance next starts v (k + 1) := by
  have hcontains : seen.contains v ↔ ∃ d ≤ k, IsDistance next starts v d := by
    rw [ExtTreeMap.contains_eq_isSome_getElem?, Option.isSome_iff_exists]
    exact exists_congr fun d => h.seen v d
  rw [newNodes, mem_sortedSet, List.mem_filter, List.mem_flatMap, Bool.not_eq_true',
    ← Bool.not_eq_true, hcontains]
  constructor
  · rintro ⟨⟨u, hu, hv⟩, hnew⟩
    refine ⟨.hop ((h.frontier u).mp hu).1 hv, fun d' hd' => ?_⟩
    obtain ⟨m, hm, hdistance⟩ := IsDistance.exists_of_reaches hd'
    by_contra hlt
    exact hnew ⟨m, by omega, hdistance⟩
  · intro hdistance
    obtain ⟨u, hu, hv⟩ := hdistance.exists_pred
    refine ⟨⟨u, (h.frontier u).mpr hu, hv⟩, ?_⟩
    rintro ⟨d, hd, hdistance'⟩
    have := hdistance.unique hdistance'
    omega

theorem round : Spread next starts (k + 1)
      (seen.insertMany ((newNodes next seen frontier).map fun id => (id, k + 1)))
      (newNodes next seen frontier) where
  seen v d := by
    rw [getElem?_insertMany_const]
    by_cases hnew : v ∈ newNodes next seen frontier
    · rw [if_pos hnew, Option.some.injEq]
      have hdistance := h.mem_newNodes.mp hnew
      constructor
      · rintro rfl
        exact ⟨Nat.le_refl _, hdistance⟩
      · exact fun hd => hdistance.unique hd.2
    · rw [if_neg hnew, h.seen v d]
      constructor
      · exact fun hd => ⟨by omega, hd.2⟩
      · rintro ⟨hd, hdistance⟩
        refine ⟨?_, hdistance⟩
        by_contra hlt
        obtain rfl : d = k + 1 := by omega
        exact hnew (h.mem_newNodes.mpr hdistance)
  frontier _ := h.mem_newNodes

theorem le_of_newNodes_eq_nil
    (hnil : newNodes next seen frontier = []) (hv : IsDistance next starts v d) : d ≤ k := by
  -- a node further away has one at each smaller distance before it
  have hbefore : ∀ m v, ¬IsDistance next starts v (k + 1 + m) := by
    intro m
    induction m with
    | zero =>
      intro v hdistance
      have hmem := h.mem_newNodes.mpr hdistance
      rw [hnil] at hmem
      exact List.not_mem_nil hmem
    | succ m ih =>
      intro v hdistance
      obtain ⟨u, hu, -⟩ := hdistance.exists_pred
      exact ih u hu
  by_contra hlt
  exact hbefore (d - (k + 1)) v (by rwa [Nat.add_sub_cancel' (by omega)])

/-- **A search goes as many hops further as it has rounds.** -/
theorem getElem?_spread (n : Nat) :
    (spread next n k seen frontier)[v]? = some d ↔ d ≤ k + n ∧ IsDistance next starts v d := by
  induction n generalizing k seen frontier with
  | zero => exact h.seen v d
  | succ n ih =>
    rw [spread]
    split
    · next hempty =>
      rw [List.isEmpty_iff] at hempty
      rw [h.seen v d]
      exact ⟨fun hd => ⟨by omega, hd.2⟩, fun hd => ⟨h.le_of_newNodes_eq_nil hempty hd.2, hd.2⟩⟩
    · rw [ih h.round]
      constructor <;> exact fun hd => ⟨by omega, hd.2⟩

end

end Spread

/-- **The distances found are the fewest hops**, of all nodes within the bound. -/
theorem getElem?_distancesFrom (n : Nat) :
    (distancesFrom next n starts)[v]? = some d ↔ d ≤ n ∧ IsDistance next starts v d := by
  rw [distancesFrom, (Spread.start next starts).getElem?_spread, Nat.zero_add]

end AppAtlas
