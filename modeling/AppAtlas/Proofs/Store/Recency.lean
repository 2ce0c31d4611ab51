import Mathlib.Data.List.Induction
import Mathlib.Order.Bounds.Basic
import AppAtlas.Proofs.Store.History

/-!
# Since when a node is there

A graph says of each concrete node which version introduced it.  That is kept from graph to graph:
a node that stays concrete keeps its version, one that has become concrete gets the version of the
new graph, and one that has reverted to a stub has none.  So the version that introduced a node is
the first one since which it has been concrete without a break.

The graphs of a history are those after the calls of each beginning of it.  Refused calls and calls
without effect leave the graph, all others make one of the next version, so a graph of the history
is known by its version.

* `Store.isLeast_introduced`: the version that introduced a node, after any calls.
* `introduced_eq_least_version_concrete_since`: all of this for the histories of a new store.
-/

namespace AppAtlas

open List
open Std (ExtTreeMap)

variable {κ : Type} [Confidence κ]

namespace Store

/-! ### One call -/

/-- **A call that is entered leaves the graph or makes one of the next version**, which succeeds the
one before. -/
theorem Current.call {s s' : Store κ} {call : Call κ} (hs : s.Current) (h : call.run s = .ok s') :
    s'.Current ∧ s'.graph.Succeeds s.graph ∧
      (s'.graph = s.graph ∨ s'.graph.version = s.graph.version + 1) := by
  cases call with
  | apply c => exact hs.applyChanges h
  | applyChanges changed removed cancelled => exact hs.applyChanges h
  | remove path =>
    have h : s.applyChanges [] [path] = .ok s' := h
    exact hs.applyChanges h
  | rebuild changed cancelled =>
    obtain ⟨hcurrent, hsucceeds, hversion⟩ := hs.rebuild h
    exact ⟨hcurrent, hsucceeds, .inr hversion⟩

theorem afterCalls_concat (calls : List (Call κ)) (call : Call κ) : afterCalls (calls ++ [call]) =
      ((call.run (afterCalls calls)).toOption.getD (afterCalls calls)) := by
  rw [← Call.leaves_act]
  exact foldl_concat ..

theorem current_afterCalls (calls : List (Call κ)) : (afterCalls calls).Current := by
  induction calls using reverseRecOn with
  | nil => exact current_empty
  | append_singleton calls call ih =>
    rw [afterCalls_concat]
    cases hr : call.run (afterCalls calls) with
    | error e => exact ih
    | ok s' => exact (ih.call hr).1

/-- **One more call leaves the graph or makes one of the next version**, which succeeds the one
before. -/
theorem afterCalls_concat_cases (calls : List (Call κ)) (call : Call κ) :
    (afterCalls (calls ++ [call])).graph = (afterCalls calls).graph ∨
      (afterCalls (calls ++ [call])).graph.version = (afterCalls calls).graph.version + 1 ∧
        (afterCalls (calls ++ [call])).graph.Succeeds (afterCalls calls).graph := by
  rw [afterCalls_concat]
  cases hr : call.run (afterCalls calls) with
  | error e => exact .inl rfl
  | ok s' =>
    obtain ⟨-, hsucceeds, hsame | hversion⟩ := (current_afterCalls calls).call hr
    · exact .inl hsame
    · exact .inr ⟨hversion, hsucceeds⟩

/-! ### The graphs of a history -/

variable {calls past : List (Call κ)}

theorem version_le_of_isPrefix (h : past <+: calls) :
    (afterCalls past).graph.version ≤ (afterCalls calls).graph.version := by
  induction calls using reverseRecOn with
  | nil =>
    obtain rfl := prefix_nil.mp h
    exact le_refl _
  | append_singleton calls call ih =>
    rcases prefix_concat_iff.mp h with rfl | h
    · exact le_refl _
    · rcases afterCalls_concat_cases calls call with hsame | ⟨hversion, -⟩
      · rw [hsame]
        exact ih h
      · rw [hversion]
        exact (ih h).trans (Nat.le_succ _)

theorem graph_eq_of_version_eq (h : past <+: calls)
    (hversion : (afterCalls past).graph.version = (afterCalls calls).graph.version) :
    (afterCalls past).graph = (afterCalls calls).graph := by
  induction calls using reverseRecOn with
  | nil =>
    obtain rfl := prefix_nil.mp h
    rfl
  | append_singleton calls call ih =>
    rcases prefix_concat_iff.mp h with rfl | h
    · rfl
    · rcases afterCalls_concat_cases calls call with hsame | ⟨hnext, -⟩
      · rw [hsame] at hversion ⊢
        exact ih h hversion
      · have hle := version_le_of_isPrefix h
        omega

theorem exists_version_eq (calls : List (Call κ)) {v : Nat}
    (h : v ≤ (afterCalls calls).graph.version) :
    ∃ past : List (Call κ), past <+: calls ∧ (afterCalls past).graph.version = v := by
  induction calls using reverseRecOn with
  | nil => exact ⟨[], prefix_refl [], (Nat.le_zero.mp h).symm⟩
  | append_singleton calls call ih =>
    by_cases hlast : v = (afterCalls (calls ++ [call])).graph.version
    · exact ⟨calls ++ [call], prefix_refl _, hlast.symm⟩
    · have hv : v ≤ (afterCalls calls).graph.version := by
        rcases afterCalls_concat_cases calls call with hsame | ⟨hnext, -⟩
        · rwa [hsame] at h
        · omega
      obtain ⟨past, hpast, hversion⟩ := ih hv
      exact ⟨past, hpast.trans (prefix_append calls [call]), hversion⟩

/-- **A version is that of one graph of a history.** -/
theorem graph_eq_of_versions_eq {past' : List (Call κ)} (h : past <+: calls) (h' : past' <+: calls)
    (hversion : (afterCalls past).graph.version = (afterCalls past').graph.version) :
    (afterCalls past).graph = (afterCalls past').graph := by
  rcases prefix_or_prefix_of_prefix h h' with hle | hle
  · exact graph_eq_of_version_eq hle hversion
  · exact (graph_eq_of_version_eq hle hversion.symm).symm

/-! ### The version that introduced a node -/

/-- **A node is concrete from a version on** if it is so in all graphs of the history from that
version up to the last one. -/
def ConcreteFrom (calls : List (Call κ)) (id : NodeId) (v : Nat) : Prop :=
  v ≤ (afterCalls calls).graph.version ∧
    ∀ past : List (Call κ), past <+: calls → v ≤ (afterCalls past).graph.version →
      (afterCalls past).graph.concreteAt id = true

variable {call : Call κ} {id : NodeId} {v : Nat}

theorem ConcreteFrom.concreteAt (h : ConcreteFrom calls id v) :
    (afterCalls calls).graph.concreteAt id :=
  h.2 calls (prefix_refl calls) h.1

theorem concreteFrom_concat_of_same
    (hsame : (afterCalls (calls ++ [call])).graph = (afterCalls calls).graph) :
    ConcreteFrom (calls ++ [call]) id v ↔ ConcreteFrom calls id v := by
  constructor
  · rintro ⟨hv, hall⟩
    rw [hsame] at hv
    exact ⟨hv, fun past hpast => hall past (hpast.trans (prefix_append calls [call]))⟩
  · rintro ⟨hv, hall⟩
    refine ⟨hsame ▸ hv, fun past hpast hle => ?_⟩
    rcases prefix_concat_iff.mp hpast with rfl | hpast
    · rw [hsame]
      exact hall calls (prefix_refl calls) hv
    · exact hall past hpast hle

theorem concreteFrom_concat_of_next
    (hnext : (afterCalls (calls ++ [call])).graph.version = (afterCalls calls).graph.version + 1)
    (hc : (afterCalls (calls ++ [call])).graph.concreteAt id) :
    ConcreteFrom (calls ++ [call]) id v ↔
      v = (afterCalls (calls ++ [call])).graph.version ∨ ConcreteFrom calls id v := by
  constructor
  · rintro ⟨hv, hall⟩
    refine or_iff_not_imp_left.mpr fun hne => ⟨by omega, fun past hpast => ?_⟩
    exact hall past (hpast.trans (prefix_append calls [call]))
  · intro h
    refine ⟨?_, fun past hpast hle => ?_⟩
    · rcases h with rfl | ⟨hv, -⟩
      · exact le_refl _
      · omega
    · rcases prefix_concat_iff.mp hpast with rfl | hpast
      · exact hc
      · rcases h with rfl | ⟨-, hall⟩
        · have hbefore := version_le_of_isPrefix hpast
          omega
        · exact hall past hpast hle

/-- **A concrete node was introduced by the first version since which it is concrete.** -/
theorem isLeast_introduced (calls : List (Call κ)) {id : NodeId}
    (h : (afterCalls calls).graph.concreteAt id) :
    ∃ v, (afterCalls calls).graph.introduced[id]? = some v ∧
      IsLeast { v | ConcreteFrom calls id v } v := by
  induction calls using reverseRecOn with
  | nil => exact absurd h (by simp [afterCalls, runAll, empty, Graph.empty, Graph.concreteAt])
  | append_singleton calls call ih =>
    rcases afterCalls_concat_cases calls call with hsame | ⟨hnext, hsucceeds⟩
    · rw [hsame] at h ⊢
      simpa only [concreteFrom_concat_of_same hsame] using ih h
    · have hid := hsucceeds id
      rw [if_pos h] at hid
      simp only [concreteFrom_concat_of_next hnext h]
      cases hbefore : (afterCalls calls).graph.concreteAt id with
      | false =>
        rw [hbefore, if_neg Bool.false_ne_true] at hid
        refine ⟨_, hid, .inl rfl, fun w hw => ?_⟩
        rcases hw with rfl | hw
        · exact le_refl _
        · exact absurd hw.concreteAt (by simp [hbefore])
      | true =>
        rw [hbefore, if_pos rfl] at hid
        obtain ⟨v, hv, hfrom, hleast⟩ := ih hbefore
        refine ⟨v, hid.trans hv, .inr hfrom, fun w hw => ?_⟩
        rcases hw with rfl | hw
        · have hle := hfrom.1
          omega
        · exact hleast hw

theorem introduced?_eq_some_iff (calls : List (Call κ)) (id : NodeId) (v : Nat) :
    (afterCalls calls).graph.introduced? id = some v ↔
      IsLeast { v | ConcreteFrom calls id v } v := by
  rw [Graph.introduced?, ExtTreeMap.get?_eq_getElem?]
  have hdated := (current_afterCalls calls).dated id
  constructor
  · intro hv
    rw [hv, Option.isSome_some] at hdated
    obtain ⟨w, hw, hleast⟩ := isLeast_introduced calls hdated.symm
    obtain rfl : w = v := Option.some.inj (hw.symm.trans hv)
    exact hleast
  · intro hleast
    obtain ⟨w, hw, hleast'⟩ := isLeast_introduced calls hleast.1.concreteAt
    rw [hw, hleast'.unique hleast]

end Store

/-- **Recency tracks continuous existence.**  Take any calls to a new store.  A further call that is
entered leaves the graph or makes one of the next version, and a rebuild always makes one.  Each
version up to the last is that of just one graph of the history.  A node has a version that
introduced it if and only if it is concrete, and that is the least version such that the node is
concrete in all graphs from that version up to the last. -/
theorem introduced_eq_least_version_concrete_since (calls : List (Store.Call κ)) :
    (∀ (call : Store.Call κ) (s : Store κ), call.run (Store.afterCalls calls) = .ok s →
      s.graph = (Store.afterCalls calls).graph ∨
        s.graph.version = (Store.afterCalls calls).graph.version + 1) ∧
    (∀ (changed : List (Contribution κ)) (cancelled : Bool) (s : Store κ),
      (Store.afterCalls calls).rebuild changed cancelled = .ok s →
        s.graph.version = (Store.afterCalls calls).graph.version + 1) ∧
    (∀ v ≤ (Store.afterCalls calls).graph.version,
      ∃! g : Graph κ, g.version = v ∧
        ∃ past : List (Store.Call κ), past <+: calls ∧ (Store.afterCalls past).graph = g) ∧
    ∀ id : NodeId,
      (((Store.afterCalls calls).graph.introduced? id).isSome =
        (Store.afterCalls calls).graph.concreteAt id) ∧
      ∀ v : Nat, (Store.afterCalls calls).graph.introduced? id = some v ↔
        IsLeast { v | v ≤ (Store.afterCalls calls).graph.version ∧
          ∀ past : List (Store.Call κ), past <+: calls →
            v ≤ (Store.afterCalls past).graph.version →
            (Store.afterCalls past).graph.concreteAt id = true } v := by
  have hcurrent := Store.current_afterCalls calls
  refine ⟨fun call s hs => (hcurrent.call hs).2.2, fun changed cancelled s hs =>
    (hcurrent.rebuild hs).2.2, fun v hv => ?_, fun id => ⟨?_, Store.introduced?_eq_some_iff calls id⟩⟩
  · obtain ⟨past, hpast, rfl⟩ := Store.exists_version_eq calls hv
    refine ⟨_, ⟨rfl, past, hpast, rfl⟩, ?_⟩
    rintro _ ⟨hversion, past', hpast', rfl⟩
    exact Store.graph_eq_of_versions_eq hpast' hpast hversion
  · rw [Graph.introduced?, ExtTreeMap.get?_eq_getElem?]
    exact hcurrent.dated id

/-! A table is defined, reverts to a stub when its file is removed, and is defined again before all
is rebuilt. -/

example :
    let stub := Node.stub .table "orders" "orders"
    let table := { stub with kind := .table, file := some "a.sql" }
    let a : Contribution Rat := { key := ⟨"1"⟩, path := "a.sql", nodes := [table] }
    let b : Contribution Rat := { key := ⟨"2"⟩, path := "b.sql", placeholders := [stub] }
    ([[], [.apply a], [.apply a, .apply b], [.apply a, .apply b, .remove "a.sql"],
      [.apply a, .apply b, .remove "a.sql", .apply a],
      [.apply a, .apply b, .remove "a.sql", .apply a, .rebuild [a, b] false]].map fun calls =>
        let g := (Store.afterCalls calls).graph
        (g.version, g.introduced? stub.id)) =
      [(0, none), (1, some 1), (2, some 1), (3, none), (4, some 4), (5, some 4)] := by
  decide +kernel

end AppAtlas
