import AppAtlas.Proofs.Query.Distances
import AppAtlas.Proofs.Resolve.Bindings
import AppAtlas.Proofs.Store.Weighed
import Mathlib.Algebra.BigOperators.Group.List.Basic
import Mathlib.Data.List.Induction
import Mathlib.Data.List.Perm.Subperm
import Mathlib.Tactic.Linarith

/-!
# Walks

What the questions about a graph are about: walks along its edges, the number of their hops and the
product of their confidences.  A walk may come back to a node.  But it can always be shortened to
one that follows no edge twice, and as confidences are at most one, this takes nothing from the
product. So a walk that matters has no more hops than the graph has edges.

* `Graph.exists_short_walk`: a walk shortened to one with no more hops than there are edges.
* `Walk.reaches_iff`: hop counts are the lengths of walks.
-/

namespace AppAtlas

open List OrderedMap
open Std (ExtTreeMap ExtTreeSet)

variable {κ : Type}

/-! ### Hops -/

def Direction.Leads (d : Direction) (e : Edge κ) (a b : NodeId) : Prop :=
  d.toDependents = true ∧ e.target = a ∧ e.source = b ∨
    d.toDependencies = true ∧ e.source = a ∧ e.target = b

theorem Direction.leads_backward {e : Edge κ} {a b : NodeId} :
    Direction.backward.Leads e a b ↔ e.source = a ∧ e.target = b := by
  simp [Leads, toDependents, toDependencies]

/-- **One hop** along an edge of a graph, in a direction and along an edge that may be followed. -/
structure Graph.Hop (g : Graph κ) (direction : Direction) (admitted : Edge κ → Prop) (a : NodeId)
    (e : Edge κ) (b : NodeId) : Prop where
  edge : g.edge? e.id = some e
  admits : admitted e
  leads : direction.Leads e a b

theorem Graph.Hop.ends {g : Graph κ} {direction : Direction} {admitted : Edge κ → Prop}
    {a b : NodeId} {e : Edge κ} (h : g.Hop direction admitted a e b) :
    a = e.source ∧ b = e.target ∨ a = e.target ∧ b = e.source := by
  rcases h.leads with ⟨-, htarget, hsource⟩ | ⟨-, hsource, htarget⟩
  · exact .inr ⟨htarget.symm, hsource.symm⟩
  · exact .inl ⟨hsource.symm, htarget.symm⟩

section

variable [Confidence κ] {g : Graph κ} {f : EdgeFilter κ} {direction : Direction} {a b : NodeId}
  {e : Edge κ}

theorem Graph.Weighed.mem_outgoing (hg : g.Weighed) :
    e ∈ g.outgoing a ↔ g.edge? e.id = some e ∧ e.source = a := by
  rw [g.outgoing_eq, (Graph.mem_edgesByKind_of_keyed (fun id e he => (hg id e he).1) _).2,
    beq_iff_eq]

theorem Graph.Weighed.mem_incoming (hg : g.Weighed) :
    e ∈ g.incoming a ↔ g.edge? e.id = some e ∧ e.target = a := by
  rw [g.incoming_eq, (Graph.mem_edgesByKind_of_keyed (fun id e he => (hg id e he).1) _).2,
    beq_iff_eq]

/-- **The nodes one hop away** are those that a hop leads to. -/
theorem Graph.Weighed.mem_neighbours (hg : g.Weighed) :
    (b, e) ∈ g.neighbours direction f a ↔ g.Hop direction (fun e => f.admits e = true) a e b := by
  have hdependents : (b, e) ∈ (if direction.toDependents then
      (g.incoming a).map fun e => (e.source, e) else []) ↔
        direction.toDependents ∧ g.edge? e.id = some e ∧ e.target = a ∧ e.source = b := by
    split
    · next hto =>
      simp only [mem_map, Prod.mk.injEq, hg.mem_incoming]
      constructor
      · rintro ⟨d, ⟨hd, htarget⟩, hsource, rfl⟩
        exact ⟨hto, hd, htarget, hsource⟩
      · rintro ⟨-, he, htarget, hsource⟩
        exact ⟨e, ⟨he, htarget⟩, hsource, rfl⟩
    · next hto => simp [hto]
  have hdependencies : (b, e) ∈ (if direction.toDependencies then
      (g.outgoing a).map fun e => (e.target, e) else []) ↔
        direction.toDependencies ∧ g.edge? e.id = some e ∧ e.source = a ∧ e.target = b := by
    split
    · next hto =>
      simp only [mem_map, Prod.mk.injEq, hg.mem_outgoing]
      constructor
      · rintro ⟨d, ⟨hd, hsource⟩, htarget, rfl⟩
        exact ⟨hto, hd, hsource, htarget⟩
      · rintro ⟨-, he, hsource, htarget⟩
        exact ⟨e, ⟨he, hsource⟩, htarget, rfl⟩
    · next hto => simp [hto]
  rw [Graph.neighbours, mem_filter, mem_append, hdependents, hdependencies]
  constructor
  · rintro ⟨⟨hto, he, hends⟩ | ⟨hto, he, hends⟩, hadmits⟩
    · exact ⟨he, hadmits, .inl ⟨hto, hends⟩⟩
    · exact ⟨he, hadmits, .inr ⟨hto, hends⟩⟩
  · rintro ⟨he, hadmits, ⟨hto, hends⟩ | ⟨hto, hends⟩⟩
    · exact ⟨.inl ⟨hto, he, hends⟩, hadmits⟩
    · exact ⟨.inr ⟨hto, he, hends⟩, hadmits⟩

end

/-! ### Walks -/

/-- **A walk** from a node along some edges to a node. -/
inductive Walk (hop : NodeId → Edge κ → NodeId → Prop) (a : NodeId) : List (Edge κ) → NodeId → Prop
  | stay : Walk hop a [] a
  | step {es : List (Edge κ)} {u v : NodeId} {e : Edge κ} (hw : Walk hop a es u) (he : hop u e v) :
    Walk hop a (es ++ [e]) v

namespace Walk

variable {hop hop' : NodeId → Edge κ → NodeId → Prop} {a b : NodeId} {es es' : List (Edge κ)}
  {e : Edge κ}

theorem of_concat (h : Walk hop a (es ++ [e]) b) : ∃ u, Walk hop a es u ∧ hop u e b := by
  generalize hes : es ++ [e] = whole at h
  cases h with
  | stay => exact absurd hes (by simp)
  | step hw he =>
    obtain ⟨rfl, hlast⟩ := append_inj' hes rfl
    obtain rfl := singleton_inj.mp hlast
    exact ⟨_, hw, he⟩

theorem of_nil (h : Walk hop a [] b) : b = a := by
  generalize hes : ([] : List (Edge κ)) = whole at h
  cases h with
  | stay => rfl
  | step hw he => exact absurd hes (by simp)

theorem append {c : NodeId} (h : Walk hop a es b) (h' : Walk hop b es' c) :
    Walk hop a (es ++ es') c := by
  induction h' with
  | stay => rwa [append_nil]
  | step _ he ih =>
    rw [← append_assoc]
    exact .step ih he

theorem of_append (h : Walk hop a (es ++ es') b) : ∃ u, Walk hop a es u ∧ Walk hop u es' b := by
  induction es' using reverseRecOn generalizing b with
  | nil => exact ⟨b, by simpa using h, .stay⟩
  | append_singleton es' e ih =>
    rw [← append_assoc] at h
    obtain ⟨w, hw, hhop⟩ := h.of_concat
    obtain ⟨u, hu, hrest⟩ := ih hw
    exact ⟨u, hu, .step hrest hhop⟩

theorem of_cons (h : Walk hop a (e :: es) b) : ∃ u, hop a e u ∧ Walk hop u es b := by
  have h : Walk hop a ([e] ++ es) b := h
  obtain ⟨u, hfirst, hrest⟩ := h.of_append
  have hfirst : Walk hop a ([] ++ [e]) u := hfirst
  obtain ⟨w, hstay, hhop⟩ := hfirst.of_concat
  exact ⟨u, hstay.of_nil ▸ hhop, hrest⟩

theorem mono (h : Walk hop a es b) (hhop : ∀ u e v, e ∈ es → hop u e v → hop' u e v) :
    Walk hop' a es b := by
  induction h with
  | stay => exact .stay
  | step _ he ih =>
    refine .step (ih fun u e v hmem => hhop u e v (mem_append_left _ hmem)) ?_
    exact hhop _ _ _ (mem_append_right _ (mem_singleton_self _)) he

theorem exists_hop (h : Walk hop a es b) : ∀ e ∈ es, ∃ u v, hop u e v := by
  induction h with
  | stay => exact fun e he => absurd he not_mem_nil
  | step _ he ih =>
    intro d hd
    rcases mem_append.mp hd with hd | hd
    · exact ih d hd
    · obtain rfl := mem_singleton.mp hd
      exact ⟨_, _, he⟩

/-- **A walk can be shortened to one that follows no edge twice.**  Coming to an edge again, in
either direction, the walk has been where it leads. -/
theorem exists_nodup (hends : ∀ a e b, hop a e b →
      a = e.source ∧ b = e.target ∨ a = e.target ∧ b = e.source) (h : Walk hop a es b) :
    ∃ es' : List (Edge κ), es'.Sublist es ∧ es'.Nodup ∧ Walk hop a es' b := by
  induction h with
  | stay => exact ⟨[], Sublist.refl _, nodup_nil, .stay⟩
  | @step es u v e _ he ih =>
    obtain ⟨short, hsub, hnodup, hshort⟩ := ih
    by_cases hmem : e ∈ short
    · obtain ⟨before, after, rfl⟩ := append_of_mem hmem
      have hfront : (before ++ [e]).Sublist (before ++ e :: after) :=
        (Sublist.refl before).append (singleton_sublist.mpr mem_cons_self)
      have hlong : (before ++ [e]).Sublist (es ++ [e]) :=
        (hfront.trans hsub).trans (sublist_append_left es [e])
      have hbefore : before.Sublist (es ++ [e]) := (sublist_append_left before [e]).trans hlong
      rw [append_cons] at hshort
      obtain ⟨y, hy, -⟩ := hshort.of_append
      obtain ⟨x, hx, hxe⟩ := hy.of_concat
      -- the edge leads from `u` to `v`, and has led from `x` to `y`
      have hv : v = y ∨ v = x := by
        rcases hends _ _ _ he with ⟨-, hv⟩ | ⟨-, hv⟩ <;>
          rcases hends _ _ _ hxe with ⟨hx, hy⟩ | ⟨hx, hy⟩
        · exact .inl (hv.trans hy.symm)
        · exact .inr (hv.trans hx.symm)
        · exact .inr (hv.trans hx.symm)
        · exact .inl (hv.trans hy.symm)
      rcases hv with rfl | rfl
      · exact ⟨before ++ [e], hlong, hnodup.sublist hfront, hy⟩
      · exact ⟨before, hbefore,
          hnodup.sublist ((sublist_append_left before [e]).trans hfront), hx⟩
    · refine ⟨short ++ [e], hsub.append_right [e], ?_, .step hshort he⟩
      rw [nodup_append]
      refine ⟨hnodup, nodup_singleton e, ?_⟩
      rintro d hd d' hd' rfl
      obtain rfl := mem_singleton.mp hd'
      exact hmem hd

/-- **Hop counts are the lengths of walks.** -/
theorem reaches_iff {next : NodeId → List NodeId} (hnext : ∀ u v, v ∈ next u ↔ ∃ e, hop u e v)
    {d : Nat} : Reaches next [a] d b ↔ ∃ es : List (Edge κ), Walk hop a es b ∧ es.length = d := by
  constructor
  · intro h
    induction h with
    | start h =>
      obtain rfl := mem_singleton.mp h
      exact ⟨[], .stay, rfl⟩
    | hop _ hv ih =>
      obtain ⟨es, hw, hlength⟩ := ih
      obtain ⟨e, he⟩ := (hnext _ _).mp hv
      exact ⟨es ++ [e], .step hw he, by rw [length_append, hlength]; rfl⟩
  · rintro ⟨es, hw, rfl⟩
    induction hw with
    | stay => exact .start (mem_singleton_self a)
    | step _ he ih =>
      rw [length_append]
      exact .hop ih ((hnext _ _).mpr ⟨_, he⟩)

end Walk

theorem Graph.length_edgeList [Confidence κ] (g : Graph κ) : g.edgeList.length = g.hopLimit := by
  rw [Graph.edgeList, values_eq_map_toList, length_map, ExtTreeMap.length_toList]
  rfl

/-- Edges of a graph of which none is twice there are no more than the graph has. -/
theorem Graph.length_le_hopLimit [Confidence κ] {g : Graph κ} {es : List (Edge κ)}
    (hnodup : es.Nodup) (hes : ∀ e ∈ es, g.edge? e.id = some e) : es.length ≤ g.hopLimit := by
  have hsub : es ⊆ g.edgeList := fun e he => mem_values.mpr ⟨e.id, hes e he⟩
  exact g.length_edgeList ▸ (hnodup.subperm hsub).length_le

/-- **A walk can be shortened to one with no more hops than the graph has edges.** -/
theorem Graph.exists_short_walk [Confidence κ] {g : Graph κ} {direction : Direction}
    {admitted : Edge κ → Prop} {a b : NodeId} {es : List (Edge κ)}
    (h : Walk (g.Hop direction admitted) a es b) :
    ∃ es' : List (Edge κ), es'.Sublist es ∧ es'.length ≤ g.hopLimit ∧
      Walk (g.Hop direction admitted) a es' b := by
  obtain ⟨es', hsub, hnodup, hwalk⟩ := h.exists_nodup fun _ _ _ hhop => hhop.ends
  refine ⟨es', hsub, length_le_hopLimit hnodup fun e he => ?_, hwalk⟩
  obtain ⟨u, v, hhop⟩ := hwalk.exists_hop e he
  exact hhop.edge

/-! ### Files with methods -/

def callEdge (a b : String) (confidence : κ) (kind : EdgeKind := .invokes) : Edge κ :=
  Edge.of (NodeId.of .serviceMethod a) (NodeId.of .serviceMethod b) kind confidence
    { file := "A.java", line := 1 }

/-- A file with some methods, and edges between them. -/
def methodFile (names : List String) (edges : List (Edge κ)) : Contribution κ where
  key := ⟨"k"⟩
  path := "A.java"
  nodes := names.map fun name =>
    { Node.stub .serviceMethod name name with kind := .serviceMethod }
  edges := edges

/-! ### Confidences -/

/-- **The confidence of a walk**: the product of the confidences of its edges. -/
def confidenceAlong (es : List (Edge Rat)) : Rat := (es.map (·.confidence)).prod

@[simp] theorem confidenceAlong_nil : confidenceAlong [] = 1 := rfl

theorem confidenceAlong_cons (e : Edge Rat) (es : List (Edge Rat)) :
    confidenceAlong (e :: es) = e.confidence * confidenceAlong es := by
  rw [confidenceAlong, map_cons, prod_cons, confidenceAlong]

theorem confidenceAlong_concat (es : List (Edge Rat)) (e : Edge Rat) :
    confidenceAlong (es ++ [e]) = confidenceAlong es * e.confidence := by
  rw [confidenceAlong, map_append, prod_append, map_singleton, prod_singleton,
    confidenceAlong]

def Units (es : List (Edge Rat)) : Prop := ∀ e ∈ es, 0 < e.confidence ∧ e.confidence ≤ 1

theorem Units.isUnit {es : List (Edge Rat)} (h : Units es) :
    0 < confidenceAlong es ∧ confidenceAlong es ≤ 1 := by
  induction es with
  | nil => simp
  | cons e es ih =>
    obtain ⟨hpos, hle⟩ := ih fun d hd => h d (mem_cons_of_mem e hd)
    obtain ⟨hpos', hle'⟩ := h e mem_cons_self
    rw [confidenceAlong_cons]
    exact ⟨mul_pos hpos' hpos, mul_le_one₀ hle' hpos.le hle⟩

theorem Units.le_of_sublist {es es' : List (Edge Rat)} (h : Units es) (hsub : es'.Sublist es) :
    confidenceAlong es ≤ confidenceAlong es' := by
  induction hsub with
  | slnil => exact le_rfl
  | @cons es' es e hsub ih =>
    have hes : Units es := fun d hd => h d (mem_cons_of_mem e hd)
    obtain ⟨-, hle⟩ := h e mem_cons_self
    rw [confidenceAlong_cons]
    exact (mul_le_of_le_one_left hes.isUnit.1.le hle).trans (ih hes)
  | @cons_cons es' es e hsub ih =>
    have hes : Units es := fun d hd => h d (mem_cons_of_mem e hd)
    obtain ⟨hpos, -⟩ := h e mem_cons_self
    rw [confidenceAlong_cons, confidenceAlong_cons]
    exact mul_le_mul_of_nonneg_left (ih hes) hpos.le

theorem Graph.Weighed.units {g : Graph Rat} (hg : g.Weighed) {direction : Direction}
    {admitted : Edge Rat → Prop} {a b : NodeId} {es : List (Edge Rat)}
    (h : Walk (g.Hop direction admitted) a es b) : Units es := by
  intro e he
  obtain ⟨u, v, hhop⟩ := h.exists_hop e he
  exact Confidence.isUnit_iff.mp (hg e.id e hhop.edge).2

end AppAtlas
