import AppAtlas.Proofs.Query.Walks
import AppAtlas.Query.Impact

/-!
# Searching by offers

Both ways of finding an impact make offers: a walk that has been found is continued by one more
edge, and the node at the end is offered the confidence of the longer walk.  Rounds do so for all
nodes found, settling for one node at a time.

This file says what holds for any number type, without a law for its order or its product.  What has
been found stays found, and is found because it was offered.  No node is settled twice and each is
entered by an edge of its own, so settling comes to an end before the steps run out.

* `Impact.round_eq_improveAll`, `Impact.rounds_eq_iterate`: rounds as offers.
* `Impact.exists_settled`: what such a search keeps, it ends with, and then nothing is open.
* `Impact.confidences_of_strategies`: what holds of what is found, whichever way it was.
-/

namespace AppAtlas

open List OrderedMap
open Std (ExtTreeMap ExtTreeSet)

/-- A number of hops is within the bound of a filter. -/
def EdgeFilter.Within {κ : Type} (f : EdgeFilter κ) (n : Nat) : Prop :=
  ∀ m : Nat, f.maxDepth = some m → n ≤ m

theorem EdgeFilter.Within.of_le {κ : Type} {f : EdgeFilter κ} {m n : Nat} (h : f.Within n)
    (hm : m ≤ n) : f.Within m := fun k hk => hm.trans (h k hk)

namespace Impact

variable {κ : Type} [Confidence κ] {g : Graph κ} {origin u v : NodeId} {direction : Direction}
  {f : EdgeFilter κ} {best : Confidences κ} {settled : ExtTreeSet NodeId compare}

/-! ### One offer -/

theorem improve_eq (f : EdgeFilter κ) (best : Confidences κ) (id : NodeId) (c : κ) :
    improve f best id c = if c < f.minConfidence then best
      else best[id]?.elim (best.insert id c) fun held =>
        if held < c then best.insert id c else best := by
  rw [improve, ExtTreeMap.get?_eq_getElem?]
  cases best[id]? <;> rfl

/-- **An offer changes nothing or is taken.**  It is taken only if it is not below the floor. -/
theorem improve_eq_or (f : EdgeFilter κ) (best : Confidences κ) (id : NodeId) (c : κ) :
    improve f best id c = best ∨ improve f best id c = best.insert id c ∧ ¬c < f.minConfidence ∧
        ∀ held, best[id]? = some held → held < c := by
  rw [improve_eq]
  split
  · exact .inl rfl
  · next hfloor =>
    cases hheld : best[id]? with
    | none => exact .inr ⟨rfl, hfloor, fun held h => absurd h (by simp)⟩
    | some held =>
      by_cases hlt : held < c
      · refine .inr ⟨if_pos hlt, hfloor, fun held' h => ?_⟩
        cases h
        exact hlt
      · exact .inl (if_neg hlt)

theorem improve_of_ne {id : NodeId} (h : id ≠ v) (c : κ) :
    (improve f best id c)[v]? = best[v]? := by
  rcases improve_eq_or f best id c with hsame | ⟨htaken, -, -⟩
  · rw [hsame]
  · rw [htaken, getElem?_insert_of, if_neg h]

theorem improve_held {x : κ} (h : best[v]? = some x) (id : NodeId) (c : κ) :
    (improve f best id c)[v]? = some x ∨ (improve f best id c)[v]? = some c ∧ x < c := by
  rcases improve_eq_or f best id c with hsame | ⟨htaken, -, hbetter⟩
  · rw [hsame]
    exact .inl h
  · rw [htaken, getElem?_insert_of]
    split
    · next hid =>
      subst hid
      exact .inr ⟨rfl, hbetter x h⟩
    · exact .inl h

theorem improve_cases {id : NodeId} {c x : κ} (h : (improve f best id c)[v]? = some x) :
    best[v]? = some x ∨ v = id ∧ x = c ∧ ¬c < f.minConfidence := by
  rcases improve_eq_or f best id c with hsame | ⟨htaken, hfloor, -⟩
  · rw [hsame] at h
    exact .inl h
  · rw [htaken, getElem?_insert_of] at h
    split at h
    · next hid => exact .inr ⟨hid.symm, (Option.some.inj h).symm, hfloor⟩
    · exact .inl h

theorem improve_offer (best : Confidences κ) (id : NodeId) {c : κ} (h : ¬c < f.minConfidence) :
    ∃ y, (improve f best id c)[id]? = some y ∧ (y = c ∨ ¬y < c) := by
  have htaken : (best.insert id c)[id]? = some c := by rw [getElem?_insert_of, if_pos rfl]
  rw [improve_eq, if_neg h]
  cases hheld : best[id]? with
  | none => exact ⟨c, htaken, .inl rfl⟩
  | some held =>
    rw [Option.elim_some]
    split
    · exact ⟨c, htaken, .inl rfl⟩
    · next hnot => exact ⟨held, hheld, .inr hnot⟩

/-! ### Several offers -/

def improveAll (f : EdgeFilter κ) (best : Confidences κ) (offers : List (NodeId × κ)) :
    Confidences κ :=
  offers.foldl (fun best o => improve f best o.1 o.2) best

theorem improveAll_cons (best : Confidences κ) (o : NodeId × κ) (offers : List (NodeId × κ)) :
    improveAll f best (o :: offers) = improveAll f (improve f best o.1 o.2) offers := rfl

theorem improveAll_cases {offers : List (NodeId × κ)} {x : κ}
    (h : (improveAll f best offers)[v]? = some x) :
    best[v]? = some x ∨ (v, x) ∈ offers ∧ ¬x < f.minConfidence := by
  induction offers generalizing best with
  | nil => exact .inl h
  | cons o offers ih =>
    rcases ih h with hx | ⟨hmem, hfloor⟩
    · rcases improve_cases hx with hx | ⟨rfl, rfl, hfloor⟩
      · exact .inl hx
      · exact .inr ⟨mem_cons_self, hfloor⟩
    · exact .inr ⟨mem_cons_of_mem o hmem, hfloor⟩

theorem improveAll_found (offers : List (NodeId × κ)) {x : κ} (h : best[v]? = some x) :
    ∃ y, (improveAll f best offers)[v]? = some y := by
  induction offers generalizing best x with
  | nil => exact ⟨x, h⟩
  | cons o offers ih =>
    rcases improve_held (f := f) h o.1 o.2 with hx | ⟨hx, -⟩
    · exact ih hx
    · exact ih hx

theorem improveAll_offered (best : Confidences κ) {offers : List (NodeId × κ)} {c : κ}
    (hmem : (v, c) ∈ offers) (h : ¬c < f.minConfidence) :
    ∃ y, (improveAll f best offers)[v]? = some y := by
  induction offers generalizing best with
  | nil => cases hmem
  | cons o offers ih =>
    rcases mem_cons.mp hmem with rfl | hmem
    · obtain ⟨y, hy, -⟩ := improve_offer best v h
      exact improveAll_found offers hy
    · exact ih (improve f best o.1 o.2) hmem

theorem improveAll_of_not_mem (best : Confidences κ) {offers : List (NodeId × κ)}
    (h : ∀ c, (v, c) ∉ offers) : (improveAll f best offers)[v]? = best[v]? := by
  induction offers generalizing best with
  | nil => rfl
  | cons o offers ih =>
    have hne : o.1 ≠ v := by
      rintro rfl
      exact h o.2 mem_cons_self
    rw [improveAll_cons, ih _ fun c hc => h c (mem_cons_of_mem o hc), improve_of_ne hne]

/-- The confidences before the first hop. -/
def started (origin : NodeId) : Confidences κ := ExtTreeMap.ofList [(origin, 1.0)] compare

theorem getElem?_started :
    (started origin : Confidences κ)[v]? = if origin = v then some 1.0 else none := by
  have hinsert : (started origin : Confidences κ) = (∅ : Confidences κ).insert origin 1.0 :=
    ExtTreeMap.ofList_singleton
  rw [hinsert, getElem?_insert_of, ExtTreeMap.getElem?_empty]

/-! ### Rounds -/

def offersOf (g : Graph κ) (direction : Direction) (f : EdgeFilter κ)
    (found : List (NodeId × κ)) : List (NodeId × κ) :=
  found.flatMap fun p =>
    (g.neighbours direction f p.1).map fun q => (q.1, p.2 * q.2.confidence)

theorem mem_offersOf (hg : g.Weighed) {found : List (NodeId × κ)} {x : κ} :
    (v, x) ∈ offersOf g direction f found ↔ ∃ u c e, (u, c) ∈ found ∧
        g.Hop direction (fun e => f.admits e = true) u e v ∧ x = c * e.confidence := by
  rw [offersOf, mem_flatMap]
  constructor
  · rintro ⟨⟨u, c⟩, hfound, hx⟩
    obtain ⟨⟨v', e⟩, hmem, heq⟩ := mem_map.mp hx
    obtain ⟨rfl, rfl⟩ := Prod.mk.inj heq
    exact ⟨u, c, e, hfound, hg.mem_neighbours.mp hmem, rfl⟩
  · rintro ⟨u, c, e, hfound, hhop, rfl⟩
    exact ⟨(u, c), hfound, mem_map.mpr ⟨(v, e), hg.mem_neighbours.mpr hhop, rfl⟩⟩

theorem round_eq_improveAll (best : Confidences κ) :
    round g direction f best = improveAll f best (offersOf g direction f best.toList) := by
  rw [round, improveAll, offersOf, foldl_flatMap]
  simp only [foldl_map]

/-- Rounds that stop when nothing changes any more are rounds. -/
theorem rounds_eq_iterate (n : Nat) (best : Confidences κ) :
    rounds g direction f n best = (round g direction f)^[n] best := by
  induction n generalizing best with
  | zero => rfl
  | succ n ih =>
    rw [rounds, Function.iterate_succ_apply]
    split
    · next hsame =>
      rw [hsame]
      exact (Function.iterate_fixed hsame n).symm
    · exact ih _

/-! ### Settling -/

omit [Confidence κ] in
theorem mem_open {x : κ} : (v, x) ∈ best.toList.filter (fun p => !settled.contains p.1) ↔
      best[v]? = some x ∧ v ∉ settled := by
  rw [mem_filter, ExtTreeMap.mem_toList_iff_getElem?_eq_some, Bool.not_eq_true',
    ← Bool.not_eq_true, ExtTreeSet.contains_iff_mem]

theorem foldl_greatest_mem (others : List (NodeId × κ)) (first : NodeId × κ) :
    others.foldl (fun a b => if a.2 < b.2 then b else a) first ∈ first :: others := by
  induction others generalizing first with
  | nil => exact mem_cons_self
  | cons b others ih =>
    rw [foldl_cons]
    split
    · exact mem_cons_of_mem first (ih b)
    · rcases mem_cons.mp (ih first) with hmem | hmem
      · rw [hmem]
        exact mem_cons_self
      · exact mem_cons_of_mem first (mem_cons_of_mem b hmem)

theorem open_of_nextToSettle? {c : κ} (h : nextToSettle? best settled = some (u, c)) :
    best[u]? = some c ∧ u ∉ settled := by
  rw [nextToSettle?] at h
  split at h
  · cases h
  · next first others hlist =>
    have hmem := foldl_greatest_mem others first
    rw [← hlist, show others.foldl (fun a b => if a.2 < b.2 then b else a) first = (u, c) from
      Option.some.inj h] at hmem
    exact mem_open.mp hmem

theorem settled_of_nextToSettle? (h : nextToSettle? best settled = none) {x : κ}
    (hx : best[v]? = some x) : v ∈ settled := by
  rw [nextToSettle?] at h
  split at h
  · next hlist =>
    by_contra hv
    have hmem := mem_open.mpr ⟨hx, hv⟩
    have hlist : best.toList.filter (fun p => !settled.contains p.1) = [] := hlist
    rw [hlist] at hmem
    exact not_mem_nil hmem
  · cases h

def offersAt (g : Graph κ) (direction : Direction) (f : EdgeFilter κ)
    (settled : ExtTreeSet NodeId compare) (id : NodeId) (c : κ) : List (NodeId × κ) :=
  ((g.neighbours direction f id).filter fun p => !settled.contains p.1).map fun p =>
    (p.1, c * p.2.confidence)

theorem mem_offersAt (hg : g.Weighed) {id : NodeId} {c x : κ} :
    (v, x) ∈ offersAt g direction f settled id c ↔ v ∉ settled ∧
      ∃ e, g.Hop direction (fun e => f.admits e = true) id e v ∧ x = c * e.confidence := by
  rw [offersAt, mem_map]
  constructor
  · rintro ⟨⟨v', e⟩, hmem, heq⟩
    obtain ⟨rfl, rfl⟩ := Prod.mk.inj heq
    rw [mem_filter, hg.mem_neighbours, Bool.not_eq_true', ← Bool.not_eq_true,
      ExtTreeSet.contains_iff_mem] at hmem
    exact ⟨hmem.2, e, hmem.1, rfl⟩
  · rintro ⟨hv, e, hhop, rfl⟩
    refine ⟨(v, e), ?_, rfl⟩
    rw [mem_filter, hg.mem_neighbours, Bool.not_eq_true', ← Bool.not_eq_true,
      ExtTreeSet.contains_iff_mem]
    exact ⟨hhop, hv⟩

theorem mem_insert {id : NodeId} : v ∈ settled.insert id ↔ v = id ∨ v ∈ settled := by
  rw [ExtTreeSet.mem_insert, Std.compare_eq_iff_eq, eq_comm]

theorem size_insert {id : NodeId} (h : id ∉ settled) :
    (settled.insert id).size = settled.size + 1 := by
  rw [ExtTreeSet.size_insert, if_neg (ExtTreeSet.contains_iff_mem.not.mpr h)]

/-- **The state of a search that settles nodes**, whatever the order in which it does. -/
structure Exploring (g : Graph κ) (direction : Direction) (f : EdgeFilter κ) (origin : NodeId)
    (best : Confidences κ) (settled : ExtTreeSet NodeId compare) : Prop where
  found : ∀ u ∈ settled, ∃ c : κ, best[u]? = some c
  /-- What is open, apart from the origin, is one hop from something settled. -/
  entered : ∀ (v : NodeId) (x : κ), best[v]? = some x → v ∉ settled → v ≠ origin →
    ∃ (u : NodeId) (e : Edge κ), u ∈ settled ∧
      g.Hop direction (fun e => f.admits e = true) u e v
  /-- Every settled node but the origin was entered by an edge of its own. -/
  size : ∃ used : List (Edge κ), used.Nodup ∧
    (∀ e ∈ used, g.edge? e.id = some e ∧ e.source ∈ settled ∧ e.target ∈ settled) ∧
    settled.size ≤ used.length + if origin ∈ settled then 1 else 0

namespace Exploring

theorem started (g : Graph κ) (direction : Direction) (f : EdgeFilter κ) (origin : NodeId) :
    Exploring g direction f origin (started origin) ∅ where
  found u hu := absurd hu ExtTreeSet.not_mem_empty
  entered v x hx _ hv := by
    rw [getElem?_started, if_neg (Ne.symm hv)] at hx
    cases hx
  size := ⟨[], nodup_nil, fun e he => absurd he not_mem_nil, by
    rw [ExtTreeSet.size_empty]
    exact Nat.zero_le _⟩

/-- No more nodes are settled than there are edges, apart from the origin. -/
theorem size_le (h : Exploring g direction f origin best settled) :
    settled.size ≤ g.hopLimit + 1 := by
  obtain ⟨used, hnodup, hused, hsize⟩ := h.size
  have hlimit := Graph.length_le_hopLimit hnodup fun e he => (hused e he).1
  split at hsize <;> omega

theorem size_insert_open (h : Exploring g direction f origin best settled) {id : NodeId} {c : κ}
    (hid : best[id]? = some c) (hopen : id ∉ settled) : ∃ used : List (Edge κ), used.Nodup ∧
      (∀ e ∈ used, g.edge? e.id = some e ∧ e.source ∈ settled.insert id ∧
        e.target ∈ settled.insert id) ∧
      (settled.insert id).size ≤ used.length + if origin ∈ settled.insert id then 1 else 0 := by
  obtain ⟨used, hnodup, hused, hsize⟩ := h.size
  have hused' : ∀ e ∈ used, g.edge? e.id = some e ∧ e.source ∈ settled.insert id ∧
      e.target ∈ settled.insert id := fun e he =>
    ⟨(hused e he).1, mem_insert.mpr (.inr (hused e he).2.1),
      mem_insert.mpr (.inr (hused e he).2.2)⟩
  rw [size_insert hopen]
  by_cases horigin : id = origin
  · subst horigin
    refine ⟨used, hnodup, hused', ?_⟩
    rw [if_neg hopen] at hsize
    rw [if_pos (mem_insert.mpr (.inl rfl))]
    omega
  · obtain ⟨u, e, hu, hhop⟩ := h.entered id c hid hopen horigin
    have hends : (e.source ∈ settled.insert id ∧ e.target ∈ settled.insert id) ∧
        ¬(e.source ∈ settled ∧ e.target ∈ settled) := by
      rcases hhop.ends with ⟨rfl, rfl⟩ | ⟨rfl, rfl⟩
      · exact ⟨⟨mem_insert.mpr (.inr hu), mem_insert.mpr (.inl rfl)⟩, fun h => hopen h.2⟩
      · exact ⟨⟨mem_insert.mpr (.inl rfl), mem_insert.mpr (.inr hu)⟩, fun h => hopen h.1⟩
    refine ⟨e :: used, nodup_cons.mpr ⟨fun he => hends.2 (hused e he).2, hnodup⟩, ?_, ?_⟩
    · intro d hd
      rcases mem_cons.mp hd with rfl | hd
      · exact ⟨hhop.edge, hends.1⟩
      · exact hused' d hd
    · have hsame : (if origin ∈ settled.insert id then 1 else 0) =
          if origin ∈ settled then 1 else 0 := by
        simp only [mem_insert, Ne.symm horigin, false_or]
      rw [hsame, length_cons]
      omega

/-- **Settling a node keeps the state in order.** -/
theorem step (hg : g.Weighed) (h : Exploring g direction f origin best settled) {id : NodeId}
    {c : κ} (hid : best[id]? = some c) (hopen : id ∉ settled) : Exploring g direction f origin
      (improveAll f best (offersAt g direction f (settled.insert id) id c))
      (settled.insert id) where
  found u hu := by
    rcases mem_insert.mp hu with rfl | hu
    · exact improveAll_found _ hid
    · obtain ⟨x, hx⟩ := h.found u hu
      exact improveAll_found _ hx
  entered v x hx hv hne := by
    rcases improveAll_cases hx with hx | ⟨hmem, -⟩
    · obtain ⟨u, e, hu, hhop⟩ := h.entered v x hx (fun hmem => hv (mem_insert.mpr (.inr hmem))) hne
      exact ⟨u, e, mem_insert.mpr (.inr hu), hhop⟩
    · obtain ⟨-, e, hhop, -⟩ := (mem_offersAt hg).mp hmem
      exact ⟨id, e, mem_insert.mpr (.inl rfl), hhop⟩
  size := h.size_insert_open hid hopen

end Exploring

/-- **What settling a node keeps, a search ends with**, and then nothing is open. -/
theorem exists_settled {P : Confidences κ → ExtTreeSet NodeId compare → Prop}
    (hexploring : ∀ {best : Confidences κ} {settled : ExtTreeSet NodeId compare},
      P best settled → Exploring g direction f origin best settled)
    (hstep : ∀ {best : Confidences κ} {settled : ExtTreeSet NodeId compare} {id : NodeId} {c : κ},
      P best settled → nextToSettle? best settled = some (id, c) →
        P (improveAll f best (offersAt g direction f (settled.insert id) id c)) (settled.insert id))
    (steps : Nat) (h : P best settled) (hsteps : g.hopLimit + 1 ≤ settled.size + steps) :
    ∃ settled', P (settle g direction f steps best settled) settled' ∧
      nextToSettle? (settle g direction f steps best settled) settled' = none := by
  induction steps generalizing best settled with
  | zero =>
    cases hnext : nextToSettle? best settled with
    | none => exact ⟨settled, h, hnext⟩
    | some next =>
      -- one more node would be more than there can be
      have hmore := (hexploring (hstep h hnext)).size_le
      rw [size_insert (open_of_nextToSettle? hnext).2] at hmore
      omega
  | succ steps ih =>
    rw [settle]
    cases hnext : nextToSettle? best settled with
    | none => exact ⟨settled, h, hnext⟩
    | some next =>
      have hkept := hstep h hnext
      rw [improveAll, offersAt, foldl_map] at hkept
      refine ih hkept ?_
      rw [size_insert (open_of_nextToSettle? hnext).2]
      omega

/-! ### Both strategies -/

/-- **What rounds keep and settling reaches holds of what is found**, for walks within the bound. -/
theorem confidences_of_strategies {P : (Nat → Prop) → Confidences κ → Prop}
    (hstart : P (· ≤ 0) (started origin))
    (hround : ∀ {n : Nat} {best : Confidences κ}, P (· ≤ n) best →
      P (· ≤ n + 1) (round g direction f best))
    (hsettle : P (fun _ => True) (settle g direction f (g.hopLimit + 1) (started origin) ∅)) :
    P f.Within (confidences g origin direction f) := by
  have hrounds : ∀ n, P (· ≤ n) (rounds g direction f n (started origin)) := by
    intro n
    rw [rounds_eq_iterate]
    induction n with
    | zero => exact hstart
    | succ n ih =>
      rw [Function.iterate_succ_apply']
      exact hround ih
  rw [confidences]
  cases hdepth : f.maxDepth with
  | none =>
    have hwithin : f.Within = fun _ => True := by
      funext n
      simp [EdgeFilter.Within, hdepth]
    rw [hwithin]
    exact hsettle
  | some depth =>
    have hwithin : f.Within = (· ≤ depth) := by
      funext n
      simp [EdgeFilter.Within, hdepth]
    rw [hwithin]
    exact hrounds depth

end Impact

end AppAtlas
