import AppAtlas.Proofs.Resolve.Definitions
import AppAtlas.Proofs.Store.Restored

/-!
# Stores in order

A store keeps contributions by the versions of files.  It stays in order as long as versions tell
files apart: whenever something is entered, no two paths share a version, among what is held and
what is given.  Documents keep this condition by themselves, so a restored store is in order too.

* `Store.InOrder`: the stores that come up while versions tell files apart.
* `Store.InOrder.holds`: such a store holds contributions that are identified.
-/

namespace AppAtlas

open Std OrderedMap

variable {κ : Type} [Confidence κ]

namespace Store

/-- Versions tell apart the files that a store holds and those that are given. -/
def TellsApart (s : Store κ) (given : List (Contribution κ)) : Prop :=
  ∀ c ∈ s.ledger.contributions.values ++ given, ∀ d ∈ s.ledger.contributions.values ++ given,
    c.key = d.key → c.path = d.path

instance (s : Store κ) (given : List (Contribution κ)) : Decidable (s.TellsApart given) :=
  inferInstanceAs (Decidable (∀ c ∈ _, ∀ d ∈ _, _))

/-- **The stores in order**: new ones, restored ones, and those after a call that was entered while
versions told files apart. -/
inductive InOrder : Store κ → Prop where
  | empty : InOrder .empty
  | restore {d : Document κ} {s : Store κ} (h : restore d = .ok s) : InOrder s
  | call {s s' : Store κ} {call : Call κ} (hs : InOrder s) (hkeys : s.TellsApart call.given)
    (h : call.run s = .ok s') : InOrder s'

variable {owner : FileKey → String} {t : Contributions κ} {s : Store κ}

theorem Holds.exists_owner (hs : s.Holds owner t) {given : List (Contribution κ)}
    (h : s.TellsApart given) : ∃ owner', s.Holds owner' t ∧ ∀ c ∈ given, owner' c.key = c.path := by
  obtain ⟨owner', howner⟩ := AppAtlas.exists_owner h
  refine ⟨owner', hs.withOwner fun c hc => ?_, fun c hc => howner c (List.mem_append_right _ hc)⟩
  obtain ⟨p, hp⟩ := mem_values.mp hc
  refine howner c (List.mem_append_left _ (hs.mem_contributions.mpr ?_))
  rw [(hs.keyed p c hp).1]
  exact hp

theorem Holds.tellsApart (hs : s.Holds owner t) {given : List (Contribution κ)}
    (h : ∀ c ∈ given, owner c.key = c.path) : s.TellsApart given := by
  have hall : ∀ c ∈ s.ledger.contributions.values ++ given, owner c.key = c.path := by
    intro c hc
    rcases List.mem_append.mp hc with hheld | hgiven
    · exact (hs.keyed c.path c (hs.mem_contributions.mp hheld)).2
    · exact h c hgiven
  intro c hc d hd hkey
  rw [← hall c hc, ← hall d hd, hkey]

theorem InOrder.applyChanges (hs : s.InOrder) {changed : List (Contribution κ)}
    (hkeys : s.TellsApart changed) {removed : List String} {cancelled : Bool} {s' : Store κ}
    (h : s.applyChanges changed removed cancelled = .ok s') : s'.InOrder :=
  @InOrder.call κ _ s s' (.applyChanges changed removed cancelled) hs hkeys h

theorem InOrder.published (hs : s.InOrder) : s.Published := by
  induction hs with
  | empty => exact .empty
  | restore h => exact .restore h
  | call _ _ h ih => exact .call ih h

/-- **A store in order holds contributions that are identified.** -/
theorem InOrder.holds (h : s.InOrder) : ∃ owner t, s.Holds owner t ∧ t.Identified := by
  induction h with
  | empty =>
    refine ⟨fun _ => "", ∅, holds_empty _, fun p c hc => ?_⟩
    rw [ExtTreeMap.getElem?_empty] at hc
    cases hc
  | @restore d s h =>
    obtain ⟨hproper, -, -, rfl⟩ := restore_eq_ok_iff.mp h
    obtain ⟨owner, howner⟩ := hproper.exists_owner
    refine ⟨owner, d.held, Document.holds_store howner, fun p c hc => ?_⟩
    obtain ⟨x, hx, -, rfl⟩ := hproper.getElem?_held.mp hc
    exact hproper.identified _ (List.mem_map_of_mem hx)
  | @call s s' call hs hkeys h ih =>
    obtain ⟨owner, t, hholds, hidentified⟩ := ih
    obtain ⟨owner', hholds', howner⟩ := hholds.exists_owner hkeys
    refine ⟨owner', call.enter t, Call.holds_run hholds' howner h, ?_⟩
    have henters : call.Enters := by
      rw [← Call.run_isOk_iff s call, h]
      rfl
    exact Call.forall_enter (fun c hc => (henters.1 c hc).identified) hidentified

theorem InOrder.runAll (hs : s.InOrder) (hholds : s.Holds owner t) {calls : List (Call κ)}
    (h : t.KeysApart calls) : (s.runAll calls).InOrder := by
  induction calls generalizing s t owner with
  | nil => exact hs
  | cons call calls ih =>
    obtain ⟨hcall, hcalls⟩ := h
    have hok := Call.run_isOk_iff s call
    by_cases henters : call.Enters
    · have hmem : ∀ c, c ∈ s.ledger.contributions.values ++ call.given →
          c ∈ t.values ++ call.given := by
        intro c hc
        refine List.mem_append.mpr ((List.mem_append.mp hc).imp_left fun hc => ?_)
        exact mem_values.mpr ⟨c.path, hholds.mem_contributions.mp hc⟩
      have hkeys : s.TellsApart call.given := fun c hc d hd =>
        hcall henters c (hmem c hc) d (hmem d hd)
      obtain ⟨owner', hholds', howner⟩ := hholds.exists_owner hkeys
      refine ih ?_ (Call.holds_step hholds' fun _ => howner) hcalls
      show (call.act.leaves s).InOrder
      rw [Call.leaves_act]
      cases hr : call.run s with
      | error e => exact hs
      | ok s' => exact .call hs hkeys hr
    · refine ih ?_ (Call.holds_step hholds fun h => absurd h henters) hcalls
      show (call.act.leaves s).InOrder
      rw [Call.leaves_act]
      cases hr : call.run s with
      | error e => exact hs
      | ok s' =>
        rw [hr, eq_false henters] at hok
        exact absurd hok (by simp [Except.isOk, Except.toBool])

theorem inOrder_afterCalls {calls : List (Call κ)} (h : Contributions.KeysApart ∅ calls) :
    (afterCalls calls).InOrder :=
  InOrder.empty.runAll (holds_empty fun _ => "") h

end Store

end AppAtlas
