import AppAtlas.Proofs.Query.Distances
import AppAtlas.Query.Path

/-!
# A search that stops at its goal

A search for a goal takes nodes from a queue.  It counts the hops to the nodes that it meets, and
leaves early in two ways: it does not go on from the goal, and it stops at the first node that is no
nearer than the goal.  All the same, the counts are right up to the layer of the goal.

The queue holds nodes of at most two neighbouring distances, the nearer ones first.  So all nodes
nearer than its first one have been left, and what they lead to has a count.

* `GraphPath.Seeks.complete`: nodes no further than the first of the queue have their counts.
* `GraphPath.Seeks.getElem?_seek`: the counts found are the distances of the nodes sought.
-/

namespace AppAtlas

open List Std OrderedMap

namespace GraphPath

variable {next : NodeId → List NodeId} {start goal u v : NodeId} {bound : Option Nat}
  {left queue : List NodeId} {counts : Distances} {d k : Nat}

/-- **A node sought**: it lies within the bound, and no further than the goal does. -/
structure Sought (next : NodeId → List NodeId) (start goal : NodeId) (bound : Option Nat)
    (v : NodeId) (d : Nat) : Prop where
  distance : IsDistance next [start] v d
  within : ∀ m : Nat, bound = some m → d ≤ m
  toGoal : ∀ t : Nat, IsDistance next [start] goal t → (∀ m : Nat, bound = some m → t ≤ m) → d ≤ t

/-- **A search under way**: the nodes that it has left, the counts and the queue. -/
structure Seeks (next : NodeId → List NodeId) (start goal : NodeId) (bound : Option Nat)
    (left : List NodeId) (counts : Distances) (queue : List NodeId) : Prop where
  mem : ∀ v : NodeId, v ∈ left ++ queue ↔ ∃ d : Nat, counts[v]? = some d
  nodup : (left ++ queue).Nodup
  begun : counts[start]? = some 0
  sound : ∀ (v : NodeId) (d : Nat), counts[v]? = some d → Sought next start goal bound v d
  /-- Nearer nodes stand first, and they are one hop nearer. -/
  levels : ∃ (k : Nat) (near far : List NodeId), queue = near ++ far ∧
    (∀ v ∈ near, counts[v]? = some k) ∧ ∀ v ∈ far, counts[v]? = some (k + 1)
  passed : ∀ (u : NodeId) (d : Nat), u ∈ left → counts[u]? = some d → u ≠ goal →
    (∀ m : Nat, bound = some m → d < m) → ∀ w ∈ next u, ∃ d' : Nat, counts[w]? = some d'

/-- Nodes met are counted and queued if they are new, each once. -/
theorem foldl_meet (ids : List NodeId) (found : Distances × List NodeId) :
    ∃ new, (ids.foldl (meet k) found).2 = found.2 ++ new ∧ new.Nodup ∧
      (∀ v, v ∈ new ↔ v ∈ ids ∧ found.1[v]? = none) ∧ ∀ v, (ids.foldl (meet k) found).1[v]? =
        if v ∈ new then some k else found.1[v]? := by
  induction ids generalizing found with
  | nil => exact ⟨[], by simp, nodup_nil, by simp, by simp⟩
  | cons id ids ih =>
    rw [foldl_cons, meet, ExtTreeMap.contains_eq_isSome_getElem?]
    cases hid : found.1[id]? with
    | some d =>
      obtain ⟨new, hqueue, hnodup, hmem, hcounts⟩ := ih found
      refine ⟨new, hqueue, hnodup, fun v => (hmem v).trans (and_congr_left fun hnone => ?_), hcounts⟩
      rw [mem_cons, or_iff_right]
      rintro rfl
      rw [hid] at hnone
      cases hnone
    | none =>
      obtain ⟨new, hqueue, hnodup, hmem, hcounts⟩ :=
        ih (found.1.insert id k, found.2 ++ [id])
      have hnew : ∀ v, v ∈ new ↔ v ∈ ids ∧ v ≠ id ∧ found.1[v]? = none := by
        intro v
        rw [hmem v, getElem?_insert_of]
        split
        · next heq => simp [heq]
        · next hne => simp [Ne.symm hne]
      refine ⟨id :: new, ?_, nodup_cons.mpr ⟨fun h => ((hnew id).mp h).2.1 rfl, hnodup⟩,
        fun v => ?_, fun v => ?_⟩
      · rw [if_neg (by simp), hqueue, append_assoc]
        rfl
      · rw [mem_cons, hnew v, mem_cons]
        by_cases heq : v = id
        · simp [heq, hid]
        · simp [heq]
      · rw [if_neg (by simp), hcounts v, getElem?_insert_of]
        by_cases heq : v = id
        · simp [heq]
        · simp [heq, Ne.symm heq]

theorem any_le_iff {bound : Option Nat} : bound.any (· ≤ k) ↔ ∃ m, bound = some m ∧ m ≤ k := by
  cases bound <;> simp

namespace Seeks

/-- **Nodes sought that are no further than the queue have their counts.** -/
theorem complete (h : Seeks next start goal bound left counts queue)
    (hk : ∀ u ∈ queue, ∀ e, counts[u]? = some e → k ≤ e) (hd : d ≤ k)
    (hv : Sought next start goal bound v d) : counts[v]? = some d := by
  induction d generalizing v with
  | zero =>
    obtain rfl := mem_singleton.mp (IsDistance.zero_iff.mp hv.distance)
    exact h.begun
  | succ d ih =>
    -- the node before is nearer than the queue and than the goal, so the search has gone on from it
    obtain ⟨u, hu, hnext⟩ := hv.distance.exists_pred
    have hcount : counts[u]? = some d := ih (by omega)
      ⟨hu, fun m hm => Nat.le_of_succ_le (hv.within m hm),
        fun t ht hwithin => Nat.le_of_succ_le (hv.toGoal t ht hwithin)⟩
    have hleft : u ∈ left := by
      refine (mem_append.mp ((h.mem u).mpr ⟨d, hcount⟩)).resolve_right fun hqueue => ?_
      have := hk u hqueue d hcount
      omega
    have hgoal : u ≠ goal := by
      rintro rfl
      have := hv.toGoal d hu fun m hm => Nat.le_of_succ_le (hv.within m hm)
      omega
    obtain ⟨d', hd'⟩ := h.passed u d hleft hcount hgoal hv.within v hnext
    rw [hd', (h.sound v d' hd').distance.unique hv.distance]

theorem exists_first (h : Seeks next start goal bound left counts (u :: queue)) :
    ∃ k near far, queue = near ++ far ∧ counts[u]? = some k ∧
      (∀ v ∈ near, counts[v]? = some k) ∧ ∀ v ∈ far, counts[v]? = some (k + 1) := by
  obtain ⟨k, near, far, hqueue, hnear, hfar⟩ := h.levels
  cases near with
  | nil =>
    obtain rfl : u :: queue = far := hqueue
    obtain ⟨hu, hqueue⟩ := forall_mem_cons.mp hfar
    exact ⟨k + 1, queue, [], (append_nil queue).symm, hu, hqueue, by simp⟩
  | cons w near =>
    obtain ⟨rfl, rfl⟩ := cons.inj hqueue
    obtain ⟨hu, hnear⟩ := forall_mem_cons.mp hnear
    exact ⟨k, near, far, rfl, hu, hnear, hfar⟩

section First

variable {near far : List NodeId} (h : Seeks next start goal bound left counts (u :: (near ++ far)))
  (hu : counts[u]? = some k) (hnear : ∀ v ∈ near, counts[v]? = some k)
  (hfar : ∀ v ∈ far, counts[v]? = some (k + 1))

include hu hnear hfar

theorem le_of_mem : ∀ w ∈ u :: (near ++ far), ∀ e, counts[w]? = some e → k ≤ e := by
  intro w hw e he
  rcases mem_cons.mp hw with rfl | hw
  · rw [hu] at he
    cases he
    exact Nat.le_refl k
  · rcases mem_append.mp hw with hw | hw
    · rw [hnear w hw] at he
      cases he
      exact Nat.le_refl k
    · rw [hfar w hw] at he
      cases he
      exact Nat.le_succ k

include h

/-- A node is left without going on from it. -/
theorem skip (hskip : u = goal ∨ ∃ m, bound = some m ∧ m ≤ k) :
    Seeks next start goal bound (left ++ [u]) counts (near ++ far) where
  mem v := by rw [append_assoc]; exact h.mem v
  nodup := by rw [append_assoc]; exact h.nodup
  begun := h.begun
  sound := h.sound
  levels := ⟨k, near, far, rfl, hnear, hfar⟩
  passed w d hw hcount hgoal hwithin := by
    rcases mem_append.mp hw with hw | hw
    · exact h.passed w d hw hcount hgoal hwithin
    · obtain rfl := mem_singleton.mp hw
      obtain ⟨m, hm, hle⟩ := hskip.resolve_left hgoal
      have := hwithin m hm
      rw [hu] at hcount
      cases hcount
      omega

variable (hwithin : ∀ m, bound = some m → k < m) (hgoal : ∀ t, counts[goal]? = some t → k < t)

include hwithin hgoal

/-- A new node that the first of the queue leads to is one hop further, and no further than the
goal, which has no count up to there. -/
theorem sought_of_new (hv : v ∈ next u) (hnew : counts[v]? = none) :
    Sought next start goal bound v (k + 1) := by
  have hleast := le_of_mem hu hnear hfar
  have hgoalFar : ∀ t, IsDistance next [start] goal t → k < t := by
    intro t ht
    by_contra hle
    have hcount := h.complete (v := goal) hleast (Nat.le_of_not_lt hle)
      ⟨ht, fun m hm => by have := hwithin m hm; omega, fun t' ht' _ => Nat.le_of_eq (ht.unique ht')⟩
    exact hle (hgoal t hcount)
  refine ⟨⟨.hop (h.sound u k hu).distance.1 hv, fun d' hd' => ?_⟩, fun m hm => hwithin m hm,
    fun t ht _ => hgoalFar t ht⟩
  obtain ⟨d, hle, hd⟩ := IsDistance.exists_of_reaches hd'
  by_contra hlt
  have hcount := h.complete (v := v) hleast (d := d) (by omega)
    ⟨hd, fun m hm => by have := hwithin m hm; omega, fun t ht _ => by have := hgoalFar t ht; omega⟩
  rw [hnew] at hcount
  cases hcount

/-- **The search goes on from the first node of the queue.** -/
theorem expand : Seeks next start goal bound (left ++ [u])
    ((next u).foldl (meet (k + 1)) (counts, near ++ far)).1
    ((next u).foldl (meet (k + 1)) (counts, near ++ far)).2 := by
  obtain ⟨new, hqueue, hnodup, hmem, hcounts⟩ :=
    foldl_meet (k := k + 1) (next u) (counts, near ++ far)
  generalize (next u).foldl (meet (k + 1)) (counts, near ++ far) = found at hqueue hcounts ⊢
  dsimp only at hqueue hmem hcounts
  have hkept : ∀ (w : NodeId) d, counts[w]? = some d → found.1[w]? = some d := by
    intro w d hw
    rw [hcounts w, if_neg fun hnew => ?_, hw]
    rw [((hmem w).mp hnew).2] at hw
    cases hw
  have hsplit : left ++ [u] ++ (near ++ far ++ new) = (left ++ u :: (near ++ far)) ++ new := by simp
  rw [hqueue]
  refine ⟨fun v => ?_, ?_, hkept start 0 h.begun, fun v d hd => ?_, ⟨k, near, far ++ new,
    append_assoc .., fun v hv => hkept v k (hnear v hv), fun v hv => ?_⟩,
    fun w d hw hcount hne hbound x hx => ?_⟩
  · rw [hsplit, mem_append, h.mem v, hcounts v]
    by_cases hv : v ∈ new <;> simp [hv]
  · rw [hsplit]
    refine nodup_append.mpr ⟨h.nodup, hnodup, fun w hw x hx heq => ?_⟩
    obtain ⟨d, hd⟩ := (h.mem w).mp hw
    rw [heq, ((hmem x).mp hx).2] at hd
    cases hd
  · rw [hcounts v] at hd
    split at hd
    · next hnew =>
      cases hd
      exact h.sought_of_new hu hnear hfar hwithin hgoal ((hmem v).mp hnew).1 ((hmem v).mp hnew).2
    · exact h.sound v d hd
  · rcases mem_append.mp hv with hv | hv
    · exact hkept v _ (hfar v hv)
    · rw [hcounts v, if_pos hv]
  · rcases mem_append.mp hw with hw | hw
    · obtain ⟨d₀, hd₀⟩ := (h.mem w).mp (mem_append_left _ hw)
      obtain rfl := Option.some.inj ((hkept w d₀ hd₀).symm.trans hcount)
      obtain ⟨d', hd'⟩ := h.passed w _ hw hd₀ hne hbound x hx
      exact ⟨d', hkept x d' hd'⟩
    · obtain rfl := mem_singleton.mp hw
      cases hcount : counts[x]? with
      | some d' => exact ⟨d', hkept x d' hcount⟩
      | none => exact ⟨k + 1, by rw [hcounts x, if_pos ((hmem x).mpr ⟨hx, hcount⟩)]⟩

end First

theorem getElem?_iff (h : Seeks next start goal bound left counts queue) (hfar : ∀ v d,
      Sought next start goal bound v d → ∀ u ∈ queue, ∀ e, counts[u]? = some e → d ≤ e) :
    counts[v]? = some d ↔ Sought next start goal bound v d :=
  ⟨h.sound v d, fun hv => h.complete (hfar v d hv) (Nat.le_refl d) hv⟩

/-- **The search ends with the counts of the nodes sought**, if it has a step for each node. -/
theorem getElem?_seek (h : Seeks next start goal bound left counts queue) {limit steps : Nat}
    (hlimit : ∀ l : List NodeId, l.Nodup →
      (∀ v ∈ l, ∃ d : Nat, IsDistance next [start] v d) → l.length ≤ limit)
    (hsteps : limit ≤ left.length + steps) :
    (seek next goal bound steps counts queue)[v]? = some d ↔ Sought next start goal bound v d := by
  induction steps generalizing left counts queue with
  | zero =>
    have hlength := hlimit _ h.nodup fun v hv =>
      ((h.mem v).mp hv).imp fun d hd => (h.sound v d hd).distance
    rw [length_append] at hlength
    obtain rfl : queue = [] := length_eq_zero_iff.mp (by omega)
    exact h.getElem?_iff fun _ _ _ _ hu => absurd hu not_mem_nil
  | succ steps ih =>
    cases queue with
    | nil => exact h.getElem?_iff fun _ _ _ _ hu => absurd hu not_mem_nil
    | cons u queue =>
      obtain ⟨k, near, far, rfl, hu, hnear, hfar⟩ := h.exists_first
      have hk : counts.getD u 0 = k := by rw [ExtTreeMap.getD_eq_getD_getElem?, hu]; rfl
      rw [seek, hk]
      dsimp only
      split
      · next hskip =>
        refine ih (h.skip hu hnear hfar (hskip.imp_right any_le_iff.mp)) ?_
        rw [length_append, length_singleton]
        omega
      · next hskip =>
        split
        · next hstop =>
          -- the goal is no further than the queue, and nothing sought is further than the goal
          obtain ⟨t, ht, hle⟩ := any_le_iff.mp hstop
          have hgoal := h.sound goal t ht
          exact h.getElem?_iff fun v d hv w hw e he =>
            Nat.le_trans (hv.toGoal t hgoal.distance hgoal.within)
              (Nat.le_trans hle (le_of_mem hu hnear hfar w hw e he))
        · next hstop =>
          refine ih (h.expand hu hnear hfar (fun m hm => ?_) fun t ht => ?_) ?_
          · by_contra hle
            exact hskip (.inr (any_le_iff.mpr ⟨m, hm, Nat.le_of_not_lt hle⟩))
          · by_contra hle
            exact hstop (any_le_iff.mpr ⟨t, ht, Nat.le_of_not_lt hle⟩)
          · rw [length_append, length_singleton]
            omega

theorem first (next : NodeId → List NodeId) (start goal : NodeId) (bound : Option Nat) :
    Seeks next start goal bound [] (ExtTreeMap.ofList [(start, 0)] compare) [start] := by
  have hcount : ∀ (v : NodeId) d, (ExtTreeMap.ofList [(start, 0)] compare : Distances)[v]? = some d ↔
      v = start ∧ d = 0 := by
    intro v d
    rw [ExtTreeMap.ofList_singleton, getElem?_insert_of, ExtTreeMap.getElem?_empty]
    split <;> simp_all [eq_comm]
  have hstart := (hcount start 0).mpr ⟨rfl, rfl⟩
  refine ⟨fun v => ?_, pairwise_singleton _ start, hstart, fun v d hd => ?_, ⟨0, [start], [], rfl,
    fun v hv => mem_singleton.mp hv ▸ hstart, by simp⟩, fun u d hu => absurd hu not_mem_nil⟩
  · simp only [hcount, nil_append, mem_singleton, exists_eq_right]
  · obtain ⟨rfl, rfl⟩ := (hcount v d).mp hd
    exact ⟨IsDistance.zero_iff.mpr mem_cons_self, fun m _ => Nat.zero_le m,
      fun t _ _ => Nat.zero_le t⟩

end Seeks

end GraphPath

end AppAtlas
