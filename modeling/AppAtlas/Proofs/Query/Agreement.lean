import AppAtlas.Proofs.Query.Path

/-!
# Paths and impacts under one filter

An impact along dependencies and a path ask for the same thing, a walk from one node to another that
a filter lets pass.  They use the floor of the filter at different moments.  The impact holds every
walk against it.  The path is first made as short as can be, and only then held against the floor.

So a path that is found leads to a node of the impact.  But a short walk of little confidence can
stand in the way of a longer one: then there is no path although the impact has the node.  Apart
from what the tolerance allows, this is the only way in which the two differ, and without a floor
they agree.

* `path_agrees_with_impact_unless_shortcut`: how the two answers compare.
* `shortcut_hides_detour`: a graph in which they differ.
-/

namespace AppAtlas

open OrderedMap
open Std (ExtTreeMap ExtTreeSet)

variable {g : Graph Rat} {f : EdgeFilter Rat} {a b : NodeId} {es : List (Edge Rat)}

/-- **A walk at or above the floor follows edges at or above the floor.** -/
theorem Graph.Fewest.counts (hg : g.Weighed) (h : g.Fewest f a es b) (hwithin : f.Within es.length)
    (hfloor : f.minConfidence ≤ confidenceAlong es) : g.Counts .backward f f.Within a es b :=
  .of_kinds hg h.walk hwithin hfloor

/-- **Paths agree with impacts unless a shortcut is in the way.**  Take a published graph, two
different nodes of it and a filter.  The impact of the first along dependencies has the second if
and only if there is a walk along edges that may be followed, within the bound, and not below the
floor.  If a path is found, it is that of such a walk, and one of the fewest hops along edges of the
allowed kinds.  If no path is found, all walks of the fewest hops are below the floor, or above it
by no more than the slack; and if the impact has the node all the same, then some walk of the fewest
hops is below the floor.  Without a floor the two agree. -/
theorem path_agrees_with_impact_unless_shortcut {s : Store Rat} (hs : s.Published)
    (ha : s.graph.hasNode a = true) (hb : s.graph.hasNode b = true) (hab : a ≠ b)
    (f : EdgeFilter Rat) :
    ∃ i : Impact Rat, Impact.of s.graph a .backward f = .ok i ∧
      ((∃ x ∈ i.entries, x.node = b) ↔ ∃ es : List (Edge Rat),
        Walk (s.graph.Hop .backward fun e => f.admits e = true) a es b ∧
        f.Within es.length ∧ f.minConfidence ≤ confidenceAlong es) ∧
      (∀ p : GraphPath Rat, GraphPath.shortest s.graph f a b = .ok p →
        (∃ x ∈ i.entries, x.node = b) ∧ ∃ es : List (Edge Rat), s.graph.Fewest f a es b ∧
          f.Within es.length ∧ f.minConfidence ≤ confidenceAlong es ∧ p = GraphPath.along a es) ∧
      (∀ error : QueryError, GraphPath.shortest s.graph f a b = .error error →
        error = .noPath a b ∧
        (∀ es : List (Edge Rat), s.graph.Fewest f a es b → f.Within es.length →
          confidenceAlong es < f.minConfidence + GraphPath.slack s.graph es.length) ∧
        ((∃ x ∈ i.entries, x.node = b) → ∃ es : List (Edge Rat), s.graph.Fewest f a es b ∧
          f.Within es.length ∧ confidenceAlong es < f.minConfidence)) ∧
      (f.minConfidence ≤ 0 → ((∃ p : GraphPath Rat, GraphPath.shortest s.graph f a b = .ok p) ↔
        ∃ x ∈ i.entries, x.node = b)) := by
  have hg := hs.weighed
  obtain ⟨i, hi⟩ := Impact.of_eq_ok_of_hasNode ha .backward f
  have hentry : (∃ x ∈ i.entries, x.node = b) ↔
      ∃ es : List (Edge Rat), s.graph.Counts .backward f f.Within a es b := by
    rw [Impact.exists_entry_iff hg hi]
    exact and_iff_right (Ne.symm hab)
  obtain ⟨hfound, hnotFound⟩ := GraphPath.search?_spec hg f a b
  have hshortest := GraphPath.shortest_eq_elim (f := f) ha hb hab
  have hok : ∀ p : GraphPath Rat, GraphPath.shortest s.graph f a b = .ok p →
      (∃ x ∈ i.entries, x.node = b) ∧ ∃ es : List (Edge Rat), s.graph.Fewest f a es b ∧
        f.Within es.length ∧ f.minConfidence ≤ confidenceAlong es ∧ p = GraphPath.along a es := by
    intro p hp
    rw [hshortest] at hp
    cases hq : GraphPath.search? s.graph f a b with
    | none => rw [hq] at hp; cases hp
    | some q =>
      rw [hq] at hp
      obtain rfl := Except.ok.inj hp
      obtain ⟨es, hes, hwithin, hfloor, hpath⟩ := hfound q hq
      exact ⟨hentry.mpr ⟨es, hes.counts hg hwithin hfloor⟩, es, hes, hwithin, hfloor, hpath⟩
  have herror : ∀ error : QueryError, GraphPath.shortest s.graph f a b = .error error →
      error = .noPath a b ∧
      (∀ es : List (Edge Rat), s.graph.Fewest f a es b → f.Within es.length →
        confidenceAlong es < f.minConfidence + GraphPath.slack s.graph es.length) ∧
      ((∃ x ∈ i.entries, x.node = b) → ∃ es : List (Edge Rat), s.graph.Fewest f a es b ∧
        f.Within es.length ∧ confidenceAlong es < f.minConfidence) := by
    intro error he
    rw [hshortest] at he
    cases hnone : GraphPath.search? s.graph f a b with
    | some p => rw [hnone] at he; cases he
    | none =>
      rw [hnone] at he
      refine ⟨(Except.error.inj he).symm, fun es hes hwithin => (hnotFound hnone es hes hwithin).1,
        fun hmem => ?_⟩
      obtain ⟨es, hes⟩ := hentry.mp hmem
      obtain ⟨short, hshort, hle⟩ := Graph.exists_fewest hes.walk_kinds
      have hwithin : f.Within short.length := fun m hm => hle.trans (hes.length m hm)
      obtain ⟨-, es', hes', hbelow⟩ := hnotFound hnone short hshort hwithin
      exact ⟨es', hes', fun m hm => (hes'.least short hshort.walk).trans (hwithin m hm), hbelow⟩
  refine ⟨i, hi, ?_, hok, herror, fun hzero => ⟨fun ⟨p, hp⟩ => (hok p hp).1, fun hmem => ?_⟩⟩
  · rw [hentry]
    constructor
    · rintro ⟨es, hwalk, hwithin, hfloor⟩
      refine ⟨es, hwalk, hwithin, hfloor.resolve_left ?_⟩
      rintro rfl
      exact hab hwalk.of_nil.symm
    · rintro ⟨es, hwalk, hwithin, hfloor⟩
      exact ⟨es, hwalk, hwithin, Or.inr hfloor⟩
  · cases hresult : GraphPath.shortest s.graph f a b with
    | ok p => exact ⟨p, rfl⟩
    | error error =>
      obtain ⟨es, hes, -, hbelow⟩ := (herror error hresult).2.2 hmem
      have hpos := (hg.units hes.walk).isUnit.1
      exact absurd hpos (not_lt.mpr (hbelow.le.trans hzero))

/-! ### A shortcut -/

/-- A method calls another one, which calls a third, and it may also call the third itself. -/
def detourFile : Contribution Rat :=
  methodFile ["A.a/0", "A.b/0", "A.c/0"]
    [callEdge "A.a/0" "A.b/0" 1, callEdge "A.b/0" "A.c/0" 1, callEdge "A.a/0" "A.c/0" (3 / 10)]

/-- Without a floor the path and the impact agree on the third method. -/
theorem detour_path_agrees :
    let g := (Store.afterCalls [.apply detourFile]).graph
    let a := NodeId.of .serviceMethod "A.a/0"
    let c := NodeId.of .serviceMethod "A.c/0"
    (g.hasNode a = true ∧ g.hasNode c = true ∧ a ≠ c) ∧
      ∃ i : Impact Rat, Impact.of g a .backward ⟨none, none, 0⟩ = .ok i ∧
        ((∃ p : GraphPath Rat, GraphPath.shortest g ⟨none, none, 0⟩ a c = .ok p) ↔
          ∃ x ∈ i.entries, x.node = c) := by
  intro g a c
  have hnodes : g.hasNode a = true ∧ g.hasNode c = true ∧ a ≠ c := by decide +kernel
  obtain ⟨i, hi, -, -, -, hagree⟩ := path_agrees_with_impact_unless_shortcut
    (Store.published_afterCalls [.apply detourFile]) hnodes.1 hnodes.2.1 hnodes.2.2
    ⟨none, none, 0⟩
  exact ⟨hnodes, i, hi, hagree (le_refl 0)⟩

/-- With a floor of one half there is no path from the first method to the third, although the
impact has the third with confidence one. -/
theorem shortcut_hides_detour :
    let g := (Store.afterCalls [.apply detourFile]).graph
    let a := NodeId.of .serviceMethod "A.a/0"
    let c := NodeId.of .serviceMethod "A.c/0"
    let f : EdgeFilter Rat := ⟨none, none, 1 / 2⟩
    (GraphPath.shortest g f a c).toOption.isNone = true ∧
      ((Impact.of g a .backward f).toOption.any fun i =>
        i.entries.any fun x => x.node = c ∧ x.confidence = 1) = true := by
  decide +kernel

end AppAtlas
