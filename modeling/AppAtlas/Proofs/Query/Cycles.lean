import AppAtlas.Proofs.Query.Components
import AppAtlas.Proofs.Store.Published
import Mathlib.Data.List.Cycle
import Mathlib.Data.Set.Card

/-!
# Cycles

The cycles listed are the elementary cycles of the graph, each once.  A cycle has no first node, so
as a list it can be written in several ways, and the one that starts at the smallest node is chosen.
From each node the search goes on to greater nodes only and closes a cycle when it comes back.  So
it meets each cycle in one way.  All nodes of a cycle are in one component, hence nothing is lost by
searching the components one by one.

The search stops when it has one cycle more than may be listed.  It takes a beginning of all that it
could find, which makes the number of cycles found a question about that whole list.

* `CycleReport.mem_allCycles`, `CycleReport.nodup_allCycles`: all cycles, each once.
* `cycles_listed_exactly`: what the report lists.
-/

namespace AppAtlas

open List OrderedMap

variable {κ : Type}

/-! ### Elementary cycles -/

/-- **An elementary cycle**: some nodes, each joined to the next by an edge and the last one to the
first, without repetition.  Where it starts does not matter. -/
structure Graph.Elementary [Confidence κ] (g : Graph κ) (f : EdgeFilter κ) (s : Cycle NodeId) :
    Prop where
  nonempty : s ≠ .nil
  nodup : s.Nodup
  joined : s.Chain (g.Leads f)

def SmallestFirst (c : List NodeId) : Prop :=
  ∀ a x : NodeId, c.head? = some a → x ∈ c → (compare a x).isLE = true

theorem exists_smallest {l : List NodeId} (h : l ≠ []) : ∃ m ∈ l, ∀ x ∈ l, (compare m x).isLE := by
  have hsorted := pairwise_sortedSet l
  cases hset : sortedSet l with
  | nil =>
    obtain ⟨x, hx⟩ := exists_mem_of_ne_nil l h
    exact absurd (mem_sortedSet.mpr hx) (by simp [hset])
  | cons m rest =>
    rw [hset] at hsorted
    refine ⟨m, mem_sortedSet.mp (by simp [hset]), fun x hx => ?_⟩
    have hx := mem_sortedSet.mpr hx
    rw [hset] at hx
    rcases mem_cons.mp hx with rfl | hx
    · exact Std.ReflCmp.isLE_rfl
    · rw [(pairwise_cons.mp hsorted).1 x hx]
      rfl

/-- A list without repetitions has one rotation with a given first entry. -/
theorem eq_of_isRotated_of_head? {c c' : List NodeId} (hnodup : c.Nodup) (h : c.IsRotated c')
    (hhead : c'.head? = c.head?) : c' = c := by
  obtain ⟨n, hn, rfl⟩ := isRotated_iff_mod.mp h
  rcases Nat.lt_or_eq_of_le hn with hlt | rfl
  · rw [head?_rotate hlt, head?_eq_getElem?] at hhead
    rcases Nat.eq_zero_or_pos n with rfl | hpos
    · exact rotate_zero c
    · exact absurd hhead.symm (nodup_iff_getElem?_ne_getElem?.mp hnodup 0 n hpos hlt)
  · exact rotate_length c

/-- **A cycle is written from its smallest node in one way.** -/
theorem existsUnique_smallestFirst {s : Cycle NodeId} (hs : s ≠ .nil) (hnodup : s.Nodup) :
    ∃! c : List NodeId, (c : Cycle NodeId) = s ∧ SmallestFirst c := by
  induction s using Quotient.inductionOn' with
  | h l =>
    have hne : l ≠ [] := fun hl => hs ((Cycle.coe_eq_nil l).mpr hl)
    obtain ⟨m, hm, hsmallest⟩ := exists_smallest hne
    obtain ⟨before, after, rfl⟩ := append_of_mem hm
    have hrotated : (m :: after ++ before).IsRotated (before ++ m :: after) := isRotated_append
    refine ⟨m :: after ++ before, ⟨Cycle.coe_eq_coe.mpr hrotated, ?_⟩, ?_⟩
    · rintro a x ha hx
      obtain rfl : m = a := Option.some.inj ha
      exact hsmallest x (hrotated.mem_iff.mp hx)
    · rintro c ⟨hc, hfirst⟩
      have hc := hrotated.trans (Cycle.coe_eq_coe.mp hc).symm
      refine eq_of_isRotated_of_head? (hrotated.nodup_iff.mpr hnodup) hc ?_
      -- the first entry of the other list is not greater, and not smaller
      cases c with
      | nil => exact absurd (hc.mem_iff.mp mem_cons_self) not_mem_nil
      | cons a c =>
        have ham := hfirst a m rfl (hc.mem_iff.mp mem_cons_self)
        have hma := hsmallest a (hrotated.mem_iff.mp (hc.mem_iff.mpr mem_cons_self))
        exact congrArg some (Std.LawfulEqOrd.eq_of_compare (Std.OrientedCmp.isLE_antisymm ham hma))

/-! ### A search that stops -/

theorem foldl_append_take {α β : Type} (f : α → List β) (room : Nat) (xs : List α)
    (found : List β) : xs.foldl (fun found x => found ++ (f x).take (room - found.length)) found =
      found ++ (xs.flatMap f).take (room - found.length) := by
  induction xs generalizing found with
  | nil => simp
  | cons x xs ih =>
    rw [foldl_cons, ih, flatMap_cons, take_append, append_assoc,
      length_append, length_take]
    congr 3
    omega

theorem foldl_append_take_nil {α β : Type} (f : α → List β) (room : Nat) (xs : List α) :
    xs.foldl (fun found x => found ++ (f x).take (room - found.length)) [] =
      (xs.flatMap f).take room := by
  rw [foldl_append_take, nil_append, length_nil, Nat.sub_zero]

namespace CycleReport

def extensions (next : NodeId → List NodeId) (start : NodeId) (maxLength : Nat) :
    Nat → List NodeId → NodeId → List (List NodeId)
  | 0, _, _ => []
  | steps + 1, path, last =>
    (next last).flatMap fun id =>
      if id = start then [path]
      else if compare start id == .lt && path.length < maxLength && !path.contains id then
        extensions next start maxLength steps (path ++ [id]) id
      else []

section

variable {next : NodeId → List NodeId} {start last x : NodeId} {maxLength steps room : Nat}
  {path rest c : List NodeId}

/-- **The search from a path takes a beginning** of all cycles that start with it. -/
theorem extend_eq_take : extend next start maxLength steps room path last =
    (extensions next start maxLength steps path last).take room := by
  induction steps generalizing room path last with
  | zero => rw [extend, extensions, take_nil]
  | succ steps ih =>
    rw [extend, extensions, ← foldl_append_take_nil]
    congr 1
    funext found id
    -- without room nothing is taken, and with room a single cycle is taken whole
    by_cases hroom : room ≤ found.length
    · rw [if_pos hroom, Nat.sub_eq_zero_of_le hroom, take_zero, append_nil]
    · rw [if_neg hroom]
      split
      · rw [take_of_length_le (by rw [length_singleton]; omega)]
      · split
        · rw [ih]
        · rw [take_nil, append_nil]

/-! ### How a path is continued -/

/-- **A continuation of a path to a cycle**: by greater nodes that are not on it yet, each joined to
the next, from the last node of the path to its start. -/
structure Closes (next : NodeId → List NodeId) (start : NodeId) (maxLength : Nat)
    (path : List NodeId) (last : NodeId) (rest : List NodeId) : Prop where
  joined : (last :: (rest ++ [start])).IsChain fun u v => v ∈ next u
  greater : ∀ x ∈ rest, compare start x = .lt
  nodup : rest.Nodup
  fresh : ∀ x ∈ rest, x ∉ path
  length : rest = [] ∨ path.length + rest.length ≤ maxLength

theorem closes_nil : Closes next start maxLength path last [] ↔ start ∈ next last := by
  constructor
  · exact fun h => isChain_pair.mp h.joined
  · exact fun h => ⟨isChain_pair.mpr h, by simp, nodup_nil, by simp, .inl rfl⟩

theorem closes_cons : Closes next start maxLength path last (x :: rest) ↔
    x ∈ next last ∧ (compare start x = .lt ∧ path.length < maxLength ∧ x ∉ path) ∧
      Closes next start maxLength (path ++ [x]) x rest := by
  constructor
  · rintro ⟨hjoined, hgreater, hnodup, hfresh, hlength⟩
    obtain ⟨hx, hjoined⟩ := isChain_cons_cons.mp hjoined
    obtain ⟨hnot, hnodup⟩ := nodup_cons.mp hnodup
    have hlength := hlength.resolve_left (cons_ne_nil x rest)
    rw [length_cons] at hlength
    refine ⟨hx, ⟨hgreater x mem_cons_self, by omega, hfresh x mem_cons_self⟩, hjoined,
      fun y hy => hgreater y (mem_cons_of_mem x hy), hnodup, fun y hy hmem => ?_,
      .inr (by rw [length_append, length_singleton]; omega)⟩
    rcases mem_append.mp hmem with hmem | hmem
    · exact hfresh y (mem_cons_of_mem x hy) hmem
    · exact hnot (mem_singleton.mp hmem ▸ hy)
  · rintro ⟨hx, ⟨hlt, hlength, hnot⟩, hjoined, hgreater, hnodup, hfresh, hlength'⟩
    refine ⟨isChain_cons_cons.mpr ⟨hx, hjoined⟩, forall_mem_cons.mpr ⟨hlt, hgreater⟩,
      nodup_cons.mpr ⟨fun hmem => hfresh x hmem (by simp), hnodup⟩,
      forall_mem_cons.mpr ⟨hnot, fun y hy hmem => hfresh y hy (mem_append_left [x] hmem)⟩,
      .inr ?_⟩
    rcases hlength' with rfl | hlength'
    · exact hlength
    · rw [length_append, length_singleton] at hlength'
      rw [length_cons]
      omega

/-- **The cycles that start with a path** are those to which it can be continued. -/
theorem mem_extensions : c ∈ extensions next start maxLength steps path last ↔
    ∃ rest, c = path ++ rest ∧ rest.length < steps ∧
      Closes next start maxLength path last rest := by
  induction steps generalizing path last with
  | zero => simp [extensions]
  | succ steps ih =>
    rw [extensions, mem_flatMap]
    constructor
    · rintro ⟨x, hx, hc⟩
      split at hc
      · next hstart =>
        exact ⟨[], by simpa using hc, Nat.succ_pos steps, closes_nil.mpr (hstart ▸ hx)⟩
      · split at hc
        · next hstep =>
          obtain ⟨rest, rfl, hlength, hcloses⟩ := ih.mp hc
          simp only [Bool.and_eq_true, beq_iff_eq, decide_eq_true_eq, Bool.not_eq_true',
            contains_eq_mem, decide_eq_false_iff_not, and_assoc] at hstep
          exact ⟨x :: rest, by simp, Nat.succ_lt_succ hlength, closes_cons.mpr ⟨hx, hstep, hcloses⟩⟩
        · cases hc
    · rintro ⟨rest, rfl, hlength, hcloses⟩
      cases rest with
      | nil => exact ⟨start, closes_nil.mp hcloses, by simp⟩
      | cons x rest =>
        obtain ⟨hx, hstep, hcloses⟩ := closes_cons.mp hcloses
        have hne : x ≠ start := by
          rintro rfl
          have hself : compare x x = .eq := Std.ReflCmp.compare_self
          exact absurd (hself.symm.trans hstep.1) (by decide)
        refine ⟨x, hx, ?_⟩
        rw [if_neg hne, if_pos (by simpa [and_assoc] using hstep)]
        exact ih.mpr ⟨rest, by simp, Nat.lt_of_succ_lt_succ hlength, hcloses⟩

/-- No cycle is found twice from a path, as the node that comes next tells where it was found. -/
theorem nodup_extensions (hnext : ∀ u, (next u).Nodup) :
    (extensions next start maxLength steps path last).Nodup := by
  induction steps generalizing path last with
  | zero => exact nodup_nil
  | succ steps ih =>
    rw [extensions]
    refine nodup_flatMap.mpr ⟨fun x _ => ?_, (hnext last).imp fun {x y} hne d hx hy => ?_⟩
    · split
      · exact nodup_singleton path
      · split
        · exact ih
        · exact nodup_nil
    · have hplace : ∀ z, (d ∈ if z = start then [path]
          else if compare start z == .lt && path.length < maxLength && !path.contains z then
            extensions next start maxLength steps (path ++ [z]) z
          else []) → d[path.length]? = if z = start then none else some z := by
        intro z hz
        split at hz
        · next hstart => rw [if_pos hstart, mem_singleton.mp hz, getElem?_length]
        · next hstart =>
          rw [if_neg hstart]
          split at hz
          · obtain ⟨rest, rfl, -⟩ := mem_extensions.mp hz
            simp
          · cases hz
      -- the same cycle would have two nodes at the place after the path
      have hsame := (hplace x hx).symm.trans (hplace y hy)
      by_cases hxs : x = start <;> by_cases hys : y = start
      · exact hne (hxs.trans hys.symm)
      · simp [hxs, hys] at hsame
      · simp [hxs, hys] at hsame
      · simp only [if_neg hxs, if_neg hys, Option.some.injEq] at hsame
        exact hne hsame

end

/-! ### All cycles -/

variable [Confidence κ] {g : Graph κ} {f : EdgeFilter κ} {maxLength : Nat} {c : List NodeId}

def cyclesIn (g : Graph κ) (f : EdgeFilter κ) (maxLength : Nat) (component : List NodeId) :
    List (List NodeId) :=
  component.flatMap fun start =>
    extensions (fun id => (successors g f id).filter component.contains) start maxLength
      component.length [start] start

def allCycles (g : Graph κ) (f : EdgeFilter κ) (maxLength : Nat) : List (List NodeId) :=
  (components g f).flatMap (cyclesIn g f maxLength)

theorem inComponent_eq_take (g : Graph κ) (f : EdgeFilter κ) (maxLength room : Nat)
    (component : List NodeId) :
    inComponent g f maxLength room component = (cyclesIn g f maxLength component).take room := by
  rw [inComponent, cyclesIn, ← foldl_append_take_nil]
  simp only [extend_eq_take]

/-- **The search takes a beginning** of all cycles, of one more than may be listed. -/
theorem search_eq_take (g : Graph κ) (f : EdgeFilter κ) (limits : CycleLimits) :
    search g f limits = (allCycles g f limits.maxLength).take (limits.maxCycles + 1) := by
  rw [search, allCycles, ← foldl_append_take_nil]
  simp only [inComponent_eq_take]

theorem exists_start_of_mem_cyclesIn {component : List NodeId}
    (h : c ∈ cyclesIn g f maxLength component) :
    ∃ start ∈ component, c.head? = some start ∧ ∃ rest, c = start :: rest ∧
      Closes (fun id => (successors g f id).filter component.contains) start maxLength [start] start
        rest := by
  obtain ⟨start, hstart, hc⟩ := mem_flatMap.mp h
  obtain ⟨rest, rfl, -, hcloses⟩ := mem_extensions.mp hc
  exact ⟨start, hstart, rfl, rest, rfl, hcloses⟩

theorem holdsCycle_of_mem_cyclesIn {component : List NodeId}
    (h : c ∈ cyclesIn g f maxLength component) : holdsCycle g f component := by
  obtain ⟨start, hstart, -, rest, -, hcloses⟩ := exists_start_of_mem_cyclesIn h
  match component, hstart, hcloses with
  | [only], hstart, hcloses =>
    -- the first hop leads to the only node
    obtain rfl := mem_singleton.mp hstart
    obtain ⟨v, vs, hv⟩ := exists_cons_of_ne_nil (append_ne_nil_of_right_ne_nil rest
      (cons_ne_nil start []))
    have hjoined := hcloses.joined
    rw [hv] at hjoined
    obtain ⟨hleads, honly⟩ := mem_filter.mp (isChain_cons_cons.mp hjoined).1
    obtain rfl : v = start := by simpa using honly
    simpa [holdsCycle] using hleads
  | _ :: _ :: _, _, _ => simp [holdsCycle]

/-- **No cycle is found twice.** -/
theorem nodup_allCycles (g : Graph κ) (f : EdgeFilter κ) (maxLength : Nat) :
    (allCycles g f maxLength).Nodup := by
  refine nodup_flatMap.mpr ⟨fun component hcomponent => ?_,
    (disjoint_components g f).imp fun {c₁ c₂} hdisjoint c h₁ h₂ => ?_⟩
  · obtain ⟨⟨u, -, rfl⟩, -⟩ := mem_components.mp hcomponent
    refine nodup_flatMap.mpr ⟨fun start _ => nodup_extensions fun id =>
      (nodup_sortedSet _).filter _, (nodup_component g f u).imp fun {s₁ s₂} hne c h₁ h₂ => hne ?_⟩
    obtain ⟨_, rfl, -⟩ := mem_extensions.mp h₁
    obtain ⟨_, heq, -⟩ := mem_extensions.mp h₂
    exact (cons.inj heq).1
  · obtain ⟨s₁, hs₁, hhead₁, -⟩ := exists_start_of_mem_cyclesIn h₁
    obtain ⟨s₂, hs₂, hhead₂, -⟩ := exists_start_of_mem_cyclesIn h₂
    obtain rfl := Option.some.inj (hhead₁.symm.trans hhead₂)
    exact hdisjoint hs₁ hs₂

theorem elementary_of_mem_cyclesIn (hmax : 1 ≤ maxLength) {component : List NodeId}
    (h : c ∈ cyclesIn g f maxLength component) :
    g.Elementary f c ∧ SmallestFirst c ∧ c.length ≤ maxLength := by
  obtain ⟨start, -, -, rest, rfl, hcloses⟩ := exists_start_of_mem_cyclesIn h
  refine ⟨⟨by simp, ?_, ?_⟩, ?_, ?_⟩
  · exact nodup_cons.mpr ⟨fun hmem => hcloses.fresh start hmem (by simp), hcloses.nodup⟩
  · rw [Cycle.chain_coe_cons]
    exact hcloses.joined.imp fun u v hv => mem_successors.mp (mem_filter.mp hv).1
  · intro a x ha hx
    obtain rfl : start = a := Option.some.inj ha
    rcases mem_cons.mp hx with rfl | hx
    · exact Std.ReflCmp.isLE_rfl
    · rw [hcloses.greater x hx]
      rfl
  · rcases hcloses.length with rfl | hlength
    · exact hmax
    · rw [length_singleton] at hlength
      rw [length_cons]
      omega

theorem linked_of_elementary {s : Cycle NodeId} (h : g.Elementary f s) {u v : NodeId} (hu : u ∈ s)
    (hv : v ∈ s) : g.Linked f u v := by
  have hchain : s.Chain (Relation.ReflTransGen (g.Leads f)) :=
    h.joined.imp fun _ _ hleads => .single hleads
  have hall := Cycle.chain_iff_pairwise.mp hchain
  exact ⟨hall u hu v hv, hall v hv u hu⟩

/-- **Every elementary cycle is found in the component of its nodes.** -/
theorem mem_cyclesIn_of_elementary {start : NodeId} {rest : List NodeId}
    (h : g.Elementary f (start :: rest : List NodeId)) (hfirst : SmallestFirst (start :: rest))
    (hlength : (start :: rest).length ≤ maxLength) :
    start ∈ nodes g f ∧ start :: rest ∈ cyclesIn g f maxLength (component g f start) := by
  have hnodup : (start :: rest).Nodup := h.nodup
  obtain ⟨hnot, hrest⟩ := nodup_cons.mp hnodup
  have hjoined := (Cycle.chain_coe_cons _ _ _).mp h.joined
  have hstart : start ∈ nodes g f := by
    obtain ⟨v, vs, hv⟩ := exists_cons_of_ne_nil (append_ne_nil_of_right_ne_nil rest
      (cons_ne_nil start []))
    rw [hv] at hjoined
    exact mem_nodes.mpr ⟨v, .inr (isChain_cons_cons.mp hjoined).1⟩
  have hcomponent : ∀ x ∈ start :: rest, x ∈ component g f start := by
    intro x hx
    have hlinked : g.Linked f start x := linked_of_elementary h mem_cons_self hx
    exact mem_component.mpr ⟨mem_nodes_of_linked hstart hlinked, hlinked⟩
  refine ⟨hstart, mem_flatMap.mpr ⟨start, hcomponent start mem_cons_self,
    mem_extensions.mpr ⟨rest, rfl, ?_, ?_, fun x hx => ?_, hrest, fun x hx hmem => ?_, .inr ?_⟩⟩⟩
  · -- no node is twice on the cycle, so it has no more of them than its component
    have hle := (hnodup.subperm hcomponent).length_le
    rwa [length_cons] at hle
  · -- each hop of the cycle stays in the component, as its nodes do
    refine (IsChain.iff_mem.mp hjoined).imp fun u v huv => ?_
    have hv : v ∈ start :: rest := by simpa [or_comm] using huv.2.1
    exact mem_filter.mpr ⟨mem_successors.mpr huv.2.2, by simpa using hcomponent v hv⟩
  · have hle := hfirst start x rfl (mem_cons_of_mem start hx)
    refine (Ordering.isLE_iff_eq_lt_or_eq_eq.mp hle).resolve_right fun heq => hnot ?_
    exact Std.LawfulEqOrd.eq_of_compare heq ▸ hx
  · exact hnot (mem_singleton.mp hmem ▸ hx)
  · rw [length_cons] at hlength
    rw [length_singleton]
    omega

/-- **All cycles are the elementary cycles**, written from their smallest nodes. -/
theorem mem_allCycles (hmax : 1 ≤ maxLength) : c ∈ allCycles g f maxLength ↔
    g.Elementary f c ∧ SmallestFirst c ∧ c.length ≤ maxLength := by
  rw [allCycles, mem_flatMap]
  constructor
  · rintro ⟨component, -, hc⟩
    exact elementary_of_mem_cyclesIn hmax hc
  · rintro ⟨helementary, hfirst, hlength⟩
    cases c with
    | nil => exact absurd rfl helementary.nonempty
    | cons start rest =>
      obtain ⟨hstart, hc⟩ := mem_cyclesIn_of_elementary helementary hfirst hlength
      exact ⟨component g f start,
        mem_components.mpr ⟨⟨start, hstart, rfl⟩, holdsCycle_of_mem_cyclesIn hc⟩, hc⟩

/-- **There are as many elementary cycles as lists of nodes are found.** -/
theorem encard_elementary (hmax : 1 ≤ maxLength) :
    {s : Cycle NodeId | g.Elementary f s ∧ s.length ≤ maxLength}.encard =
      (allCycles g f maxLength).length := by
  have himage : {s : Cycle NodeId | g.Elementary f s ∧ s.length ≤ maxLength} =
      (fun c : List NodeId => (c : Cycle NodeId)) '' {c | c ∈ allCycles g f maxLength} := by
    ext s
    constructor
    · rintro ⟨helementary, hlength⟩
      obtain ⟨c, ⟨rfl, hfirst⟩, -⟩ :=
        existsUnique_smallestFirst helementary.nonempty helementary.nodup
      exact ⟨c, (mem_allCycles hmax).mpr ⟨helementary, hfirst, hlength⟩, rfl⟩
    · rintro ⟨c, hc, rfl⟩
      obtain ⟨helementary, -, hlength⟩ := (mem_allCycles hmax).mp hc
      exact ⟨helementary, hlength⟩
  have hinj : Set.InjOn (fun c : List NodeId => (c : Cycle NodeId))
      {c | c ∈ allCycles g f maxLength} := by
    intro c hc c' hc' heq
    obtain ⟨helementary, hfirst, -⟩ := (mem_allCycles hmax).mp hc
    obtain ⟨-, hfirst', -⟩ := (mem_allCycles hmax).mp hc'
    exact (existsUnique_smallestFirst helementary.nonempty helementary.nodup).unique ⟨rfl, hfirst⟩
      ⟨heq.symm, hfirst'⟩
  rw [himage, hinj.encard_image, ← coe_toFinset, Set.encard_coe_eq_coe_finsetCard,
    toFinset_card_of_nodup (nodup_allCycles g f maxLength)]

/-! ### The report -/

section

variable (g : Graph κ) (f : EdgeFilter κ) (limits : CycleLimits)

theorem cycles_of_perm : (of g f limits).cycles.Perm
      ((allCycles g f limits.maxLength).take limits.maxCycles) := by
  refine (mergeSort_perm _ _).trans ?_
  rw [search_eq_take, take_take, Nat.min_eq_left (Nat.le_succ _)]

theorem truncated_of_iff : (of g f limits).truncated ↔
      limits.maxCycles < (allCycles g f limits.maxLength).length := by
  refine decide_eq_true_iff.trans ?_
  rw [search_eq_take, length_take, Nat.lt_min]
  exact and_iff_right (Nat.lt_succ_self _)

theorem pairwise_cycles_of : (of g f limits).cycles.Pairwise fun c d => compare c d = .lt := by
  have hsorted : (of g f limits).cycles.Pairwise fun c d => (compare c d).isLE = true :=
    pairwise_mergeSort_key id _
  have hnodup : (of g f limits).cycles.Nodup :=
    (cycles_of_perm g f limits).nodup_iff.mpr
      ((nodup_allCycles g f limits.maxLength).sublist (take_sublist _ _))
  refine hsorted.imp₂ (fun c d hle hne => ?_) hnodup
  exact (Ordering.isLE_iff_eq_lt_or_eq_eq.mp hle).resolve_right fun heq =>
    hne (Std.LawfulEqOrd.eq_of_compare heq)

end

end CycleReport

/-- **The cycles listed are the elementary cycles.**  For any graph, filter and limits that allow
cycles of one node, the report lists cycles in lexicographic order, none twice.  Each of them is an
elementary cycle along edges of the allowed kinds not below the floor, is written from its smallest
node, and has no more nodes than allowed.  If the report is not truncated, it has each such cycle
exactly once.  If it is truncated, it has as many as allowed.  It is truncated if and only if there
are more. -/
theorem cycles_listed_exactly [Confidence κ] (g : Graph κ) (f : EdgeFilter κ) (limits : CycleLimits)
    (hmax : 1 ≤ limits.maxLength) :
    let r := CycleReport.of g f limits
    r.cycles.Pairwise (fun c d => compare c d = .lt) ∧
    (∀ c ∈ r.cycles, g.Elementary f c ∧ SmallestFirst c ∧ c.length ≤ limits.maxLength) ∧
    (r.truncated = false → ∀ s : Cycle NodeId, g.Elementary f s → s.length ≤ limits.maxLength →
      ∃! c : List NodeId, c ∈ r.cycles ∧ (c : Cycle NodeId) = s) ∧
    (r.truncated = true → r.cycles.length = limits.maxCycles) ∧
    (r.truncated = true ↔ (limits.maxCycles : ℕ∞) <
      {s : Cycle NodeId | g.Elementary f s ∧ s.length ≤ limits.maxLength}.encard) := by
  intro r
  have hperm := CycleReport.cycles_of_perm g f limits
  have htruncated := CycleReport.truncated_of_iff g f limits
  have hlisted : ∀ c ∈ r.cycles,
      g.Elementary f c ∧ SmallestFirst c ∧ c.length ≤ limits.maxLength := fun c hc =>
    (CycleReport.mem_allCycles hmax).mp (List.mem_of_mem_take (hperm.mem_iff.mp hc))
  refine ⟨CycleReport.pairwise_cycles_of g f limits, hlisted, fun hwhole s hs hlength => ?_,
    fun hcut => ?_, ?_⟩
  · have hall : r.cycles.Perm (CycleReport.allCycles g f limits.maxLength) := by
      rwa [List.take_of_length_le (not_lt.mp fun hlt => by simp [htruncated.mpr hlt, r] at hwhole)]
        at hperm
    obtain ⟨c, ⟨rfl, hfirst⟩, hunique⟩ := existsUnique_smallestFirst hs.nonempty hs.nodup
    refine ⟨c, ⟨hall.mem_iff.mpr ((CycleReport.mem_allCycles hmax).mpr ⟨hs, hfirst, hlength⟩), rfl⟩,
      ?_⟩
    rintro d ⟨hd, hsame⟩
    exact hunique d ⟨hsame, (hlisted d hd).2.1⟩
  · rw [hperm.length_eq, List.length_take, Nat.min_eq_left (htruncated.mp hcut).le]
  · rw [CycleReport.encard_elementary hmax, Nat.cast_lt]
    exact htruncated

/-- Three methods call each other in a round, the first two also directly, and the third calls
itself. -/
def roundFile : Contribution Float :=
  methodFile ["A.a/0", "A.b/0", "A.c/0"]
    [callEdge "A.a/0" "A.b/0" 0.5, callEdge "A.b/0" "A.a/0" 0.5, callEdge "A.b/0" "A.c/0" 0.5,
      callEdge "A.c/0" "A.a/0" 0.5, callEdge "A.c/0" "A.c/0" 0.5]

/-- There are three cycles, and a report that may list two of them is truncated. -/
theorem round_cycles_listed :
    let g := (Store.afterCalls [.apply roundFile]).graph
    let a := NodeId.of .serviceMethod "A.a/0"
    let b := NodeId.of .serviceMethod "A.b/0"
    let c := NodeId.of .serviceMethod "A.c/0"
    let whole := CycleReport.of g .all ⟨3, 10⟩
    let cut := CycleReport.of g .all ⟨3, 2⟩
    (whole = ⟨[[a, b], [a, b, c], [c]], false⟩ ∧ cut.truncated = true) ∧
      (∀ s : Cycle NodeId, g.Elementary .all s → s.length ≤ 3 →
        ∃! c : List NodeId, c ∈ whole.cycles ∧ (c : Cycle NodeId) = s) ∧
      cut.cycles.length = 2 ∧
      2 < {s : Cycle NodeId | g.Elementary .all s ∧ s.length ≤ 3}.encard := by
  intro g a b c whole cut
  have hfound : CycleReport.search g .all ⟨3, 10⟩ = [[a, b], [a, b, c], [c]] ∧
      cut.truncated = true := by decide +kernel
  have hreports : whole = ⟨[[a, b], [a, b, c], [c]], false⟩ ∧ cut.truncated = true := by
    refine ⟨?_, hfound.2⟩
    show CycleReport.of g .all ⟨3, 10⟩ = _
    rw [CycleReport.of, hfound.1]
    exact congrArg (CycleReport.mk · false) (mergeSort_eq_of_perm (.refl _) (by decide +kernel))
  obtain ⟨-, -, hwhole, -⟩ := cycles_listed_exactly g .all ⟨3, 10⟩ (by decide)
  obtain ⟨-, -, -, hcut, hmore⟩ := cycles_listed_exactly g .all ⟨3, 2⟩ (by decide)
  exact ⟨hreports, hwhole (congrArg CycleReport.truncated hreports.1), hcut hreports.2,
    hmore.mp hreports.2⟩

end AppAtlas
