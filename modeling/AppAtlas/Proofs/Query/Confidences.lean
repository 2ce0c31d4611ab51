import AppAtlas.Proofs.Query.Offers

/-!
# The greatest confidence with which a node is reached

Without a bound on the hops nodes are settled one after the other, the one of greatest confidence
first.  With a bound there are as many rounds of improvement as hops.  Both find for each node the
greatest confidence of the walks that count: those along edges that may be followed, within the
bound, and of a confidence not below the floor.

Both strategies offer walks that are one hop longer than walks found before.  For each there is an
invariant: `Settling` for the first, and that all walks up to a number of hops have been looked at
for the second.  Here the numbers are exact, so that products never grow along a walk.

* `Searched.round`: a round looks at the walks that are one hop longer.
* `getElem?_confidences`: what is found is the greatest confidence of the walks that count.
-/

namespace AppAtlas

open List OrderedMap
open Std (ExtTreeMap ExtTreeSet)

variable {g : Graph Rat} {origin u v : NodeId} {direction : Direction} {f : EdgeFilter Rat}
  {es : List (Edge Rat)} {e : Edge Rat}

/-! ### Walks that count -/

/-- **A walk counts** for a filter, up to some number of hops: its edges may be followed, and its
confidence is not below the floor unless it stays where it is. -/
structure Graph.Counts (g : Graph Rat) (direction : Direction) (f : EdgeFilter Rat)
    (within : Nat → Prop) (origin : NodeId) (es : List (Edge Rat)) (v : NodeId) : Prop where
  walk : Walk (g.Hop direction fun e => f.admits e = true) origin es v
  length : within es.length
  confidence : es = [] ∨ f.minConfidence ≤ confidenceAlong es

namespace Graph.Counts

variable {within within' : Nat → Prop}

theorem mono (h : g.Counts direction f within origin es v) (hw : ∀ n, within n → within' n) :
    g.Counts direction f within' origin es v :=
  ⟨h.walk, hw _ h.length, h.confidence⟩

theorem of_concat (hg : g.Weighed) (hw : ∀ n, within (n + 1) → within' n)
    (h : g.Counts direction f within origin (es ++ [e]) v) :
    ∃ u, g.Counts direction f within' origin es u ∧
      g.Hop direction (fun e => f.admits e = true) u e v ∧
      f.minConfidence ≤ confidenceAlong es * e.confidence := by
  obtain ⟨u, hwalk, hhop⟩ := h.walk.of_concat
  have hfloor : f.minConfidence ≤ confidenceAlong (es ++ [e]) :=
    h.confidence.resolve_left (by simp)
  have hlength := h.length
  rw [length_append] at hlength
  refine ⟨u, ⟨hwalk, hw _ hlength, .inr (hfloor.trans ?_)⟩, hhop, ?_⟩
  · exact (hg.units h.walk).le_of_sublist (sublist_append_left es [e])
  · rwa [← confidenceAlong_concat]

theorem of_kinds (hg : g.Weighed)
    (hwalk : Walk (g.Hop direction fun e => f.allowsKind e.kind = true) origin es v)
    (hwithin : within es.length) (hfloor : f.minConfidence ≤ confidenceAlong es) :
    g.Counts direction f within origin es v := by
  refine ⟨hwalk.mono fun u e v hmem hhop => ⟨hhop.edge, ?_, hhop.leads⟩, hwithin, .inr hfloor⟩
  have hedge : confidenceAlong es ≤ e.confidence := by
    have hle := (hg.units hwalk).le_of_sublist (singleton_sublist.mpr hmem)
    rwa [confidenceAlong_cons, confidenceAlong_nil, mul_one] at hle
  rw [EdgeFilter.admits, Bool.and_eq_true]
  exact ⟨hhop.admits, decide_eq_true (hfloor.trans hedge)⟩

theorem walk_kinds (h : g.Counts direction f within origin es v) :
    Walk (g.Hop direction fun e => f.allowsKind e.kind = true) origin es v := by
  refine h.walk.mono fun u e v _ hhop => ⟨hhop.edge, ?_, hhop.leads⟩
  have hadmits := hhop.admits
  rw [EdgeFilter.admits, Bool.and_eq_true] at hadmits
  exact hadmits.1

end Graph.Counts

/-! ### Offers -/

namespace Impact

theorem improve_mono {best : Confidences Rat} {x : Rat} (h : best[v]? = some x) (id : NodeId)
    (c : Rat) : ∃ y, (improve f best id c)[v]? = some y ∧ x ≤ y := by
  rcases improve_held (f := f) h id c with hx | ⟨hc, hlt⟩
  · exact ⟨x, hx, le_rfl⟩
  · exact ⟨c, hc, hlt.le⟩

theorem improveAll_mono {best : Confidences Rat} (offers : List (NodeId × Rat)) {x : Rat}
    (h : best[v]? = some x) : ∃ y, (improveAll f best offers)[v]? = some y ∧ x ≤ y := by
  induction offers generalizing best x with
  | nil => exact ⟨x, h, le_rfl⟩
  | cons o offers ih =>
    obtain ⟨y, hy, hxy⟩ := improve_mono (f := f) h o.1 o.2
    obtain ⟨z, hz, hyz⟩ := ih hy
    exact ⟨z, hz, hxy.trans hyz⟩

theorem improveAll_offer (best : Confidences Rat) {offers : List (NodeId × Rat)} {c : Rat}
    (hmem : (v, c) ∈ offers) (h : f.minConfidence ≤ c) :
    ∃ y, (improveAll f best offers)[v]? = some y ∧ c ≤ y := by
  induction offers generalizing best with
  | nil => cases hmem
  | cons o offers ih =>
    rcases mem_cons.mp hmem with rfl | hmem
    · obtain ⟨y, hy, hcy⟩ := improve_offer best v (not_lt.mpr h)
      obtain ⟨z, hz, hyz⟩ := improveAll_mono (f := f) offers hy
      have hle : c ≤ y := hcy.elim (fun heq => heq.ge) fun hnot => not_lt.mp hnot
      exact ⟨z, hz, hle.trans hyz⟩
    · exact ih (improve f best o.1 o.2) hmem

/-! ### What has been found -/

def Attained (g : Graph Rat) (direction : Direction) (f : EdgeFilter Rat) (within : Nat → Prop)
    (origin : NodeId) (best : Confidences Rat) : Prop :=
  ∀ (v : NodeId) (c : Rat), best[v]? = some c →
    ∃ es : List (Edge Rat), g.Counts direction f within origin es v ∧ confidenceAlong es = c

/-- For every walk that counts something as good is found. -/
def Covered (g : Graph Rat) (direction : Direction) (f : EdgeFilter Rat) (within : Nat → Prop)
    (origin : NodeId) (best : Confidences Rat) : Prop :=
  ∀ (es : List (Edge Rat)) (v : NodeId), g.Counts direction f within origin es v →
    ∃ c : Rat, best[v]? = some c ∧ confidenceAlong es ≤ c

/-- **All walks up to some number of hops have been looked at.** -/
structure Searched (g : Graph Rat) (direction : Direction) (f : EdgeFilter Rat)
    (within : Nat → Prop) (origin : NodeId) (best : Confidences Rat) : Prop where
  attained : Attained g direction f within origin best
  covered : Covered g direction f within origin best

theorem getElem?_started_one :
    (started origin : Confidences Rat)[v]? = if origin = v then some 1 else none := by
  have hone : (1.0 : Rat) = 1 := by norm_num
  rw [getElem?_started]
  show (if origin = v then some (1.0 : Rat) else none) = _
  rw [hone]

theorem attained_started {within : Nat → Prop} (hw : within 0) :
    Attained g direction f within origin (started origin) := by
  intro v c hc
  rw [getElem?_started_one] at hc
  split at hc
  · next hv =>
    subst hv
    cases hc
    exact ⟨[], ⟨.stay, hw, .inl rfl⟩, rfl⟩
  · cases hc

theorem Attained.units {within : Nat → Prop} (hg : g.Weighed) {best : Confidences Rat}
    (h : Attained g direction f within origin best) {c : Rat} (hc : best[v]? = some c) :
    0 < c ∧ c ≤ 1 := by
  obtain ⟨es, hes, rfl⟩ := h v c hc
  exact (hg.units hes.walk).isUnit

/-! ### Rounds -/

namespace Searched

theorem started (g : Graph Rat) (direction : Direction) (f : EdgeFilter Rat) (origin : NodeId) :
    Searched g direction f (· ≤ 0) origin (started origin) where
  attained := attained_started (Nat.le_refl 0)
  covered es v h := by
    obtain rfl := length_eq_zero_iff.mp (Nat.le_zero.mp h.length)
    obtain rfl := h.walk.of_nil
    exact ⟨1, by rw [getElem?_started_one, if_pos rfl], le_rfl⟩

/-- **A round looks at the walks that are one hop longer.** -/
theorem round (hg : g.Weighed) {n : Nat} {best : Confidences Rat}
    (h : Searched g direction f (· ≤ n) origin best) :
    Searched g direction f (· ≤ n + 1) origin (round g direction f best) where
  attained v x hx := by
    rw [round_eq_improveAll] at hx
    rcases improveAll_cases hx with hx | ⟨hmem, hfloor⟩
    · obtain ⟨es, hes, hconfidence⟩ := h.attained v x hx
      exact ⟨es, hes.mono fun m hm => Nat.le_succ_of_le hm, hconfidence⟩
    · obtain ⟨u, c, e, hfound, hhop, rfl⟩ := (mem_offersOf hg).mp hmem
      obtain ⟨es, hes, rfl⟩ :=
        h.attained u c (ExtTreeMap.mem_toList_iff_getElem?_eq_some.mp hfound)
      rw [← confidenceAlong_concat] at hfloor ⊢
      refine ⟨es ++ [e], ⟨.step hes.walk hhop, ?_, .inr (not_lt.mp hfloor)⟩, rfl⟩
      rw [length_append]
      exact Nat.succ_le_succ hes.length
  covered es v hes := by
    rw [round_eq_improveAll]
    induction es using reverseRecOn with
    | nil =>
      obtain ⟨c, hc, hle⟩ := h.covered [] v ⟨hes.walk, Nat.zero_le n, .inl rfl⟩
      obtain ⟨y, hy, hcy⟩ := improveAll_mono (f := f) _ hc
      exact ⟨y, hy, hle.trans hcy⟩
    | append_singleton es e _ =>
      have hshorter : ∀ m, m + 1 ≤ n + 1 → m ≤ n := fun _ => Nat.le_of_succ_le_succ
      obtain ⟨u, hcounts, hhop, hfloor⟩ := hes.of_concat hg hshorter
      obtain ⟨c, hc, hle⟩ := h.covered es u hcounts
      have hpos : 0 < e.confidence := (hg.units hes.walk e (by simp)).1
      have hoffer : confidenceAlong es * e.confidence ≤ c * e.confidence :=
        mul_le_mul_of_nonneg_right hle hpos.le
      have hmem := (mem_offersOf hg).mpr
        ⟨u, c, e, ExtTreeMap.mem_toList_iff_getElem?_eq_some.mpr hc, hhop, rfl⟩
      obtain ⟨y, hy, hcy⟩ := improveAll_offer best hmem (hfloor.trans hoffer)
      exact ⟨y, hy, (confidenceAlong_concat es e ▸ hoffer).trans hcy⟩

end Searched

/-! ### Settling -/

theorem le_foldl_greatest (others : List (NodeId × Rat)) (first : NodeId × Rat) :
    ∀ p ∈ first :: others,
      p.2 ≤ (others.foldl (fun a b => if a.2 < b.2 then b else a) first).2 := by
  induction others generalizing first with
  | nil => simp
  | cons b others ih =>
    rw [foldl_cons]
    intro p hp
    split
    · next hlt =>
      rcases mem_cons.mp hp with rfl | hp
      · exact hlt.le.trans (ih b b mem_cons_self)
      · exact ih b p hp
    · next hnot =>
      rcases mem_cons.mp hp with rfl | hp
      · exact ih p p mem_cons_self
      · rcases mem_cons.mp hp with rfl | hp
        · exact (not_lt.mp hnot).trans (ih first first mem_cons_self)
        · exact ih first p (mem_cons_of_mem first hp)

theorem le_of_nextToSettle? {best : Confidences Rat} {settled : ExtTreeSet NodeId compare}
    {c x : Rat} (h : nextToSettle? best settled = some (u, c)) (hx : best[v]? = some x)
    (hv : v ∉ settled) : x ≤ c := by
  rw [nextToSettle?] at h
  split at h
  · cases h
  · next first others hlist =>
    have hmem : (v, x) ∈ first :: others := hlist ▸ mem_open.mpr ⟨hx, hv⟩
    have hle := le_foldl_greatest others first (v, x) hmem
    rwa [show others.foldl (fun a b => if a.2 < b.2 then b else a) first = (u, c) from
      Option.some.inj h] at hle

/-- **The state of a search that settles nodes.**  What is settled is final: nothing that is still
open is better, and its own hops have been taken. -/
structure Settling (g : Graph Rat) (direction : Direction) (f : EdgeFilter Rat) (origin : NodeId)
    (best : Confidences Rat) (settled : ExtTreeSet NodeId compare) : Prop
    extends Exploring g direction f origin best settled where
  attained : Attained g direction f (fun _ => True) origin best
  start : ∃ c : Rat, best[origin]? = some c ∧ 1 ≤ c
  order : ∀ (u v : NodeId) (c x : Rat), u ∈ settled → v ∉ settled →
    best[u]? = some c → best[v]? = some x → x ≤ c
  relaxed : ∀ (u v : NodeId) (c : Rat) (e : Edge Rat), u ∈ settled → best[u]? = some c →
    g.Hop direction (fun e => f.admits e = true) u e v → f.minConfidence ≤ c * e.confidence →
    ∃ x : Rat, best[v]? = some x ∧ c * e.confidence ≤ x

namespace Settling

variable {best : Confidences Rat} {settled : ExtTreeSet NodeId compare}

theorem started (g : Graph Rat) (direction : Direction) (f : EdgeFilter Rat) (origin : NodeId) :
    Settling g direction f origin (started origin) ∅ where
  toExploring := Exploring.started g direction f origin
  attained := attained_started trivial
  start := ⟨1, by rw [getElem?_started_one, if_pos rfl], le_rfl⟩
  order u v c x hu := absurd hu ExtTreeSet.not_mem_empty
  relaxed u v c e hu := absurd hu ExtTreeSet.not_mem_empty

/-- **Settling a node keeps the state in order.** -/
theorem step (hg : g.Weighed) (h : Settling g direction f origin best settled) {id : NodeId}
    {c : Rat} (hnext : nextToSettle? best settled = some (id, c)) : Settling g direction f origin
      (improveAll f best (offersAt g direction f (settled.insert id) id c))
      (settled.insert id) := by
  obtain ⟨hid, hopen⟩ := open_of_nextToSettle? hnext
  have hexploring := h.toExploring.step hg hid hopen
  obtain ⟨hpos, -⟩ := h.attained.units hg hid
  generalize hoffers : offersAt g direction f (settled.insert id) id c = offers at hexploring ⊢
  have hoffer : ∀ v x, (v, x) ∈ offers ↔ v ∉ settled.insert id ∧
      ∃ e, g.Hop direction (fun e => f.admits e = true) id e v ∧
        x = c * e.confidence := fun v x => hoffers ▸ mem_offersAt hg
  -- a hop lowers the confidence, and what is settled is not offered again
  have hlower : ∀ {v : NodeId} {e : Edge Rat},
      g.Hop direction (fun e => f.admits e = true) id e v → c * e.confidence ≤ c :=
    fun hhop => mul_le_of_le_one_right hpos.le (Confidence.isUnit_iff.mp (hg _ _ hhop.edge).2).2
  have hkept : ∀ u ∈ settled.insert id, (improveAll f best offers)[u]? = best[u]? :=
    fun u hu => improveAll_of_not_mem best fun x hx => ((hoffer u x).mp hx).1 hu
  have habove : ∀ u x, u ∈ settled.insert id → best[u]? = some x → c ≤ x := by
    intro u x hu hx
    rcases mem_insert.mp hu with rfl | hu
    · exact (Option.some.inj (hid.symm.trans hx)).le
    · exact h.order u id x c hu hopen hx hid
  refine ⟨hexploring, ?_, ?_, ?_, ?_⟩
  · intro v x hx
    rcases improveAll_cases hx with hx | ⟨hmem, hfloor⟩
    · exact h.attained v x hx
    · obtain ⟨-, e, hhop, rfl⟩ := (hoffer v x).mp hmem
      obtain ⟨es, hes, rfl⟩ := h.attained id c hid
      rw [← confidenceAlong_concat] at hfloor ⊢
      exact ⟨es ++ [e], ⟨.step hes.walk hhop, trivial, .inr (not_lt.mp hfloor)⟩, rfl⟩
  · obtain ⟨x, hx, hle⟩ := h.start
    obtain ⟨y, hy, hxy⟩ := improveAll_mono (f := f) offers hx
    exact ⟨y, hy, hle.trans hxy⟩
  · intro u v x y hu hv hx hy
    rw [hkept u hu] at hx
    refine le_trans ?_ (habove u x hu hx)
    rcases improveAll_cases hy with hy | ⟨hmem, -⟩
    · exact le_of_nextToSettle? hnext hy fun hmem => hv (mem_insert.mpr (.inr hmem))
    · obtain ⟨-, e, hhop, rfl⟩ := (hoffer v y).mp hmem
      exact hlower hhop
  · intro u v x e hu hx hhop hfloor
    rw [hkept u hu] at hx
    rcases mem_insert.mp hu with rfl | hu
    · obtain rfl := Option.some.inj (hid.symm.trans hx)
      by_cases hv : v ∈ settled.insert u
      · -- a hop back to what is settled has nothing to offer
        have hfound : ∃ y, best[v]? = some y := by
          rcases mem_insert.mp hv with rfl | hv
          · exact ⟨c, hid⟩
          · exact h.found v hv
        obtain ⟨y, hy⟩ := hfound
        exact ⟨y, (hkept v hv).trans hy, (hlower hhop).trans (habove v y hv hy)⟩
      · exact improveAll_offer best ((hoffer v _).mpr ⟨hv, e, hhop, rfl⟩) hfloor
    · obtain ⟨y, hy, hxy⟩ := h.relaxed u v x e hu hx hhop hfloor
      obtain ⟨z, hz, hyz⟩ := improveAll_mono (f := f) offers hy
      exact ⟨z, hz, hxy.trans hyz⟩

theorem searched (hg : g.Weighed) (h : Settling g direction f origin best settled)
    (hnone : nextToSettle? best settled = none) :
    Searched g direction f (fun _ => True) origin best := by
  refine ⟨h.attained, fun es v hes => ?_⟩
  -- along the walk: what is found at each node is as good as the walk so far
  induction es using reverseRecOn generalizing v with
  | nil =>
    obtain rfl := hes.walk.of_nil
    exact h.start
  | append_singleton es e ih =>
    obtain ⟨u, hcounts, hhop, hfloor⟩ := hes.of_concat hg fun _ _ => trivial
    obtain ⟨c, hc, hle⟩ := ih u hcounts
    have hpos : 0 < e.confidence := (hg.units hes.walk e (by simp)).1
    have hoffer : confidenceAlong es * e.confidence ≤ c * e.confidence :=
      mul_le_mul_of_nonneg_right hle hpos.le
    obtain ⟨x, hx, hcx⟩ := h.relaxed u v c e (settled_of_nextToSettle? hnone hc) hc hhop
      (hfloor.trans hoffer)
    exact ⟨x, hx, (confidenceAlong_concat es e ▸ hoffer).trans hcx⟩

/-- **Settling as many nodes as can be reached looks at all walks that count.** -/
theorem settle (hg : g.Weighed) : Searched g direction f (fun _ => True) origin
      (settle g direction f (g.hopLimit + 1) (Impact.started origin) ∅) := by
  obtain ⟨settled, h, hnone⟩ := exists_settled (P := Settling g direction f origin)
    (fun h => h.toExploring) (fun h hnext => h.step hg hnext) (g.hopLimit + 1)
    (started g direction f origin) (Nat.le_add_left _ _)
  exact h.searched hg hnone

end Settling

/-! ### Both strategies -/

/-- **Both strategies look at all walks that count.** -/
theorem searched_confidences (hg : g.Weighed) :
    Searched g direction f f.Within origin (confidences g origin direction f) :=
  confidences_of_strategies (P := fun within => Searched g direction f within origin)
    (Searched.started g direction f origin) (fun h => h.round hg) (Settling.settle hg)

/-- **What is found for a node is the greatest confidence of the walks to it that count.** -/
theorem getElem?_confidences (hg : g.Weighed) {c : Rat} :
    (confidences g origin direction f)[v]? = some c ↔
      (∃ es : List (Edge Rat), g.Counts direction f f.Within origin es v ∧ confidenceAlong es = c) ∧
      ∀ es : List (Edge Rat), g.Counts direction f f.Within origin es v →
        confidenceAlong es ≤ c := by
  have h : Searched g direction f f.Within origin (confidences g origin direction f) :=
    searched_confidences hg
  constructor
  · intro hc
    refine ⟨h.attained v c hc, fun es hes => ?_⟩
    obtain ⟨x, hx, hle⟩ := h.covered es v hes
    rwa [← Option.some.inj (hc.symm.trans hx)] at hle
  · rintro ⟨⟨es, hes, rfl⟩, hgreatest⟩
    obtain ⟨x, hx, hle⟩ := h.covered es v hes
    obtain ⟨es', hes', rfl⟩ := h.attained v x hx
    rw [hx, le_antisymm hle (hgreatest es' hes')]

end Impact

end AppAtlas
