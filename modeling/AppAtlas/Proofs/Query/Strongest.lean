import AppAtlas.Proofs.Confidence.Products
import AppAtlas.Proofs.Query.Walks
import AppAtlas.Query.Path

/-!
# Strongest edges

Paths leave a node along the strongest edge to each successor: the one of greatest confidence, and
the first by identity if there are several.  It is found by looking at one edge after the other and
keeping the one that is stronger.  The path to a node is chosen among several in the same way, so
what can be said about it is said here for any notion of better.  What is kept has been offered, an
offer that is better than all others is kept, and if better than better is better, then no offer is
better than what is kept.

* `not_better_of_preferred?`, `preferred?_eq_of_best`: which one is kept.
* `Graph.Strongest`: the strongest edge between two nodes.
* `GraphPath.mem_strongestEdges`: the edges along which a node is left are the strongest ones.
-/

namespace AppAtlas

open List OrderedMap
open Std (ExtTreeMap)

variable {α κ : Type}

/-! ### Keeping the better one -/

/-- What is kept when one more is offered: the offer, if nothing was kept or the offer is better. -/
def prefer (better : α → α → Bool) (held : Option α) (x : α) : Option α :=
  some (held.elim x fun a => if better x a then x else a)

def preferred? (better : α → α → Bool) (xs : List α) : Option α :=
  xs.foldl (prefer better) none

section

variable {better : α → α → Bool} {xs : List α} {a x : α}

theorem preferred?_concat (better : α → α → Bool) (xs : List α) (x : α) :
    preferred? better (xs ++ [x]) = prefer better (preferred? better xs) x := by
  rw [preferred?, foldl_append, preferred?, foldl_cons, foldl_nil]

theorem preferred?_concat_cases (h : preferred? better (xs ++ [x]) = some a) :
    a = x ∧ (∀ b, preferred? better xs = some b → better x b) ∨
      preferred? better xs = some a ∧ better x a = false := by
  rw [preferred?_concat, prefer, Option.some.injEq] at h
  cases hheld : preferred? better xs with
  | none =>
    rw [hheld] at h
    exact .inl ⟨h.symm, fun b hb => absurd hb (by simp)⟩
  | some b =>
    rw [hheld, Option.elim_some] at h
    split at h
    · next hbetter => exact .inl ⟨h.symm, fun b' hb' => Option.some.inj hb' ▸ hbetter⟩
    · next hbetter => exact .inr ⟨congrArg some h, by simpa [← h] using hbetter⟩

theorem mem_of_preferred? (h : preferred? better xs = some a) : a ∈ xs := by
  induction xs using reverseRecOn with
  | nil => exact absurd h (by simp [preferred?])
  | append_singleton xs x ih =>
    rcases preferred?_concat_cases h with ⟨rfl, -⟩ | ⟨hheld, -⟩
    · exact mem_append_right xs (mem_singleton_self a)
    · exact mem_append_left [x] (ih hheld)

theorem exists_preferred? (better : α → α → Bool) (h : x ∈ xs) :
    ∃ a, preferred? better xs = some a := by
  obtain ⟨init, last, rfl⟩ := (eq_nil_or_concat' xs).resolve_left (ne_nil_of_mem h)
  rw [preferred?_concat]
  exact ⟨_, rfl⟩

/-- **No offer is better than what is kept**, if better than better is better. -/
theorem not_better_of_preferred? (hirrefl : ∀ x ∈ xs, better x x = false)
    (htrans : ∀ x ∈ xs, ∀ y ∈ xs, ∀ z ∈ xs, better x y → better y z → better x z)
    (h : preferred? better xs = some a) : ∀ x ∈ xs, better x a = false := by
  induction xs using reverseRecOn generalizing a with
  | nil => exact fun x hx => absurd hx not_mem_nil
  | append_singleton xs last ih =>
    have hbefore : ∀ x ∈ xs, x ∈ xs ++ [last] := fun x => mem_append_left [last]
    have hlast : last ∈ xs ++ [last] := mem_append_right xs (mem_singleton_self last)
    have hkept : ∀ b, preferred? better xs = some b → ∀ x ∈ xs, better x b = false :=
      fun b hb => ih (fun x hx => hirrefl x (hbefore x hx))
        (fun x hx y hy z hz => htrans x (hbefore x hx) y (hbefore y hy) z (hbefore z hz)) hb
    intro x hx
    rcases preferred?_concat_cases h with ⟨rfl, hover⟩ | ⟨hheld, hnot⟩
    · rcases mem_append.mp hx with hx | hx
      · obtain ⟨b, hb⟩ := exists_preferred? better hx
        by_contra hbetter
        have hmem := hbefore b (mem_of_preferred? hb)
        have hxb := htrans x (hbefore x hx) a hlast b hmem (by simpa using hbetter) (hover b hb)
        exact absurd hxb (by simp [hkept b hb x hx])
      · exact mem_singleton.mp hx ▸ hirrefl a hlast
    · rcases mem_append.mp hx with hx | hx
      · exact hkept a hheld x hx
      · exact mem_singleton.mp hx ▸ hnot

/-- **An offer that is better than all others is kept.** -/
theorem preferred?_eq_of_best (ha : a ∈ xs)
    (h : ∀ x ∈ xs, x ≠ a → better a x ∧ better x a = false) : preferred? better xs = some a := by
  induction xs using reverseRecOn with
  | nil => cases ha
  | append_singleton xs last ih =>
    have hbefore : ∀ x ∈ xs, x ≠ a → better a x ∧ better x a = false :=
      fun x hx => h x (mem_append_left [last] hx)
    obtain ⟨b, hb⟩ := exists_preferred? better ha
    rw [hb, Option.some.injEq]
    rcases preferred?_concat_cases hb with ⟨rfl, hover⟩ | ⟨hheld, hnot⟩
    · by_contra hne
      have hmem : a ∈ xs := (mem_append.mp ha).resolve_right fun hmem =>
        hne (mem_singleton.mp hmem).symm
      have hover := hover a (ih hmem hbefore)
      rw [(h b (mem_append_right xs (mem_singleton_self b)) hne).2] at hover
      cases hover
    · rcases mem_append.mp ha with ha | ha
      · exact Option.some.inj (hheld.symm.trans (ih ha hbefore))
      · by_contra hne
        obtain rfl := mem_singleton.mp ha
        rw [(hbefore b (mem_of_preferred? hheld) hne).1] at hnot
        cases hnot

end

/-! ### Strongest edges -/

section

variable [Confidence κ]

/-- **The strongest edge from one node to another**, of the kinds that a filter allows: none is more
confident, and of those that are not less confident none has a lower identity. -/
structure Graph.Strongest (g : Graph κ) (f : EdgeFilter κ) (u : NodeId) (e : Edge κ) (v : NodeId) :
    Prop where
  hop : g.Hop .backward (fun e => f.allowsKind e.kind = true) u e v
  greatest : ∀ d : Edge κ, g.Hop .backward (fun e => f.allowsKind e.kind = true) u d v →
    ¬e.confidence < d.confidence
  first : ∀ d : Edge κ, g.Hop .backward (fun e => f.allowsKind e.kind = true) u d v →
    ¬d.confidence < e.confidence → (compare e.id d.id).isLE = true

namespace Graph.Strongest

variable {g : Graph κ} {f : EdgeFilter κ} {u v : NodeId} {d e : Edge κ}

theorem source_eq (h : g.Strongest f u e v) : e.source = u :=
  (Direction.leads_backward.mp h.hop.leads).1

theorem target_eq (h : g.Strongest f u e v) : e.target = v :=
  (Direction.leads_backward.mp h.hop.leads).2

theorem unique (hd : g.Strongest f u d v) (he : g.Strongest f u e v) : d = e := by
  have hle := hd.first e he.hop (he.greatest d hd.hop)
  have hge := he.first d hd.hop (hd.greatest e he.hop)
  have hid : d.id = e.id :=
    Std.LawfulEqOrd.eq_of_compare (Std.OrientedCmp.isLE_antisymm hle hge)
  exact Option.some.inj (hd.hop.edge.symm.trans (hid ▸ he.hop.edge))

end Graph.Strongest

namespace GraphPath

variable {g : Graph κ} {f : EdgeFilter κ} {u v : NodeId} {d e : Edge κ}

theorem strongerEdge_iff : strongerEdge d e ↔
    e.confidence < d.confidence ∨ ¬d.confidence < e.confidence ∧ compare d.id e.id = .lt := by
  simp [strongerEdge]

section

variable [Confidence.Ranked κ]

theorem strongerEdge_irrefl (e : Edge κ) : strongerEdge e e = false := by
  rw [← Bool.not_eq_true, strongerEdge_iff]
  rintro (hlt | ⟨-, hid⟩)
  · exact Confidence.Ordered.lt_irrefl _ hlt
  · have hself : compare e.id e.id = .eq := Std.ReflCmp.compare_self
    exact absurd (hself.symm.trans hid) (by decide)

theorem strongerEdge_trans {c : Edge κ} (hc : Confidence.isUnit c.confidence)
    (hd : Confidence.isUnit d.confidence) (he : Confidence.isUnit e.confidence)
    (hcd : strongerEdge c d) (hde : strongerEdge d e) : strongerEdge c e := by
  rw [strongerEdge_iff] at hcd hde ⊢
  rcases hcd with hcd | ⟨hcd, hidcd⟩ <;> rcases hde with hde | ⟨hde, hidde⟩
  · exact .inl (Confidence.Ordered.lt_trans _ _ _ hde hcd)
  · refine .inl (by_contra fun hnot => ?_)
    exact Confidence.Ranked.not_lt_trans _ _ _ hd he hc hde hnot hcd
  · refine .inl (by_contra fun hnot => ?_)
    exact Confidence.Ranked.not_lt_trans _ _ _ he hc hd hnot hcd hde
  · exact .inr ⟨Confidence.Ranked.not_lt_trans _ _ _ hc hd he hcd hde,
      Std.TransCmp.lt_trans hidcd hidde⟩

end

def edgesBetween (g : Graph κ) (f : EdgeFilter κ) (u v : NodeId) : List (Edge κ) :=
  ((g.outgoing u).filter fun e => f.allowsKind e.kind).filter (·.target == v)

theorem mem_edgesBetween (hg : g.Weighed) : e ∈ edgesBetween g f u v ↔
    g.Hop .backward (fun e => f.allowsKind e.kind = true) u e v := by
  rw [edgesBetween, mem_filter, mem_filter, hg.mem_outgoing, beq_iff_eq]
  constructor
  · rintro ⟨⟨⟨hedge, hsource⟩, hkind⟩, htarget⟩
    exact ⟨hedge, hkind, Direction.leads_backward.mpr ⟨hsource, htarget⟩⟩
  · intro h
    obtain ⟨hsource, htarget⟩ := Direction.leads_backward.mp h.leads
    exact ⟨⟨⟨h.edge, hsource⟩, h.admits⟩, htarget⟩

theorem getElem?_foldl_chosen (edges : List (Edge κ))
    (chosen : ExtTreeMap NodeId (Edge κ) compare) (v : NodeId) :
    (edges.foldl (fun chosen e => chosen.alter e.target fun held => prefer strongerEdge held e)
      chosen)[v]? = (edges.filter (·.target == v)).foldl (prefer strongerEdge) chosen[v]? := by
  induction edges generalizing chosen with
  | nil => rfl
  | cons e edges ih =>
    rw [foldl_cons, ih, getElem?_alter_of, filter_cons]
    by_cases hv : e.target = v
    · subst hv
      rw [if_pos rfl, if_pos (by simp), foldl_cons]
    · rw [if_neg hv, if_neg (by simpa using hv)]

theorem strongestEdges_eq (g : Graph κ) (f : EdgeFilter κ) (u : NodeId) : strongestEdges g f u =
      (((g.outgoing u).filter fun e => f.allowsKind e.kind).foldl
        (fun chosen e => chosen.alter e.target fun held => prefer strongerEdge held e)
        (∅ : ExtTreeMap NodeId (Edge κ) compare)).values := by
  rw [strongestEdges]
  congr 2
  funext chosen e
  congr 1
  funext held
  cases held <;> rfl

theorem mem_strongestEdges_iff_preferred? : e ∈ strongestEdges g f u ↔
    ∃ v, preferred? strongerEdge (edgesBetween g f u v) = some e := by
  rw [strongestEdges_eq, mem_values]
  refine exists_congr fun v => ?_
  rw [getElem?_foldl_chosen, ExtTreeMap.getElem?_empty, preferred?, edgesBetween]

theorem nodup_strongestEdges (g : Graph κ) (f : EdgeFilter κ) (u : NodeId) :
    (strongestEdges g f u).Nodup := by
  rw [strongestEdges_eq]
  refine nodup_values fun v e he => (?_ : e.target = v)
  rw [getElem?_foldl_chosen, ExtTreeMap.getElem?_empty] at he
  simpa using (mem_filter.mp (mem_of_preferred? he)).2

variable [Confidence.Ranked κ]

theorem strongest_of_preferred? (hg : g.Weighed)
    (h : preferred? strongerEdge (edgesBetween g f u v) = some e) : g.Strongest f u e v := by
  have hunit : ∀ d ∈ edgesBetween g f u v, Confidence.isUnit d.confidence :=
    fun d hd => (hg d.id d ((mem_edgesBetween hg).mp hd).edge).2
  have hbest := not_better_of_preferred? (fun d _ => strongerEdge_irrefl d)
    (fun c hc d hd e he => strongerEdge_trans (hunit c hc) (hunit d hd) (hunit e he)) h
  have hnot : ∀ d, g.Hop .backward (fun e => f.allowsKind e.kind = true) u d v →
      ¬(e.confidence < d.confidence ∨ ¬d.confidence < e.confidence ∧ compare d.id e.id = .lt) :=
    fun d hd => by
      rw [← strongerEdge_iff, Bool.not_eq_true]
      exact hbest d ((mem_edgesBetween hg).mpr hd)
  refine ⟨(mem_edgesBetween hg).mp (mem_of_preferred? h), fun d hd hlt => hnot d hd (.inl hlt),
    fun d hd hle => ?_⟩
  rw [← Ordering.ne_gt_iff_isLE]
  exact fun hgt => hnot d hd (.inr ⟨hle, Std.OrientedCmp.gt_iff_lt.mp hgt⟩)

/-- **The edges along which a node is left are the strongest ones**, one to each successor. -/
theorem mem_strongestEdges (hg : g.Weighed) :
    e ∈ strongestEdges g f u ↔ g.Strongest f u e e.target := by
  rw [mem_strongestEdges_iff_preferred?]
  constructor
  · rintro ⟨v, hv⟩
    have hstrongest := strongest_of_preferred? hg hv
    exact hstrongest.target_eq.symm ▸ hstrongest
  · intro h
    obtain ⟨d, hd⟩ := exists_preferred? strongerEdge ((mem_edgesBetween hg).mpr h.hop)
    exact ⟨e.target, h.unique (strongest_of_preferred? hg hd) ▸ hd⟩

theorem exists_strongest (hg : g.Weighed)
    (h : g.Hop .backward (fun e => f.allowsKind e.kind = true) u e v) :
    ∃ d, g.Strongest f u d v := by
  obtain ⟨d, hd⟩ := exists_preferred? strongerEdge ((mem_edgesBetween hg).mpr h)
  exact ⟨d, strongest_of_preferred? hg hd⟩

end GraphPath

end

end AppAtlas
