import AppAtlas.Proofs.Store.Commit
import AppAtlas.Store.Basic

/-!
# Calls to a store

A call to a store checks what it is given, asks twice whether to stop, and only then writes the
ledger and publishes a graph.  This file follows a call step by step and says what comes of it: a
call that is refused leaves the store as it was, though nothing puts it back, and one that is not
takes the store to the one that its batch makes.

* `Store.Action.Enters`: a call is entered whole or refused, at any moment of a run.
* `Store.applyChanges_eq_elim`, `Store.rebuild_eq_elim`: the same of a store alone.
* `Store.Action.restore_eq`: a document is restored, or the store is as it was.
-/

namespace AppAtlas

open List Std

variable {κ : Type}

/-! ### One step after the other -/

section Steps

variable {ε σ α β : Type} {x : EStateM ε σ α} {f : α → EStateM ε σ β} {s t : σ} {a : α} {e : ε}

theorem bind_of_ok (h : x s = .ok a t) : (x >>= f) s = f a t := by
  show EStateM.bind x f s = f a t
  rw [EStateM.bind, h]

theorem bind_of_error (h : x s = .error e t) : (x >>= f) s = .error e t := by
  show EStateM.bind x f s = .error e t
  rw [EStateM.bind, h]

end Steps

/-- The moment after the two polls of a call. -/
def Run.polled (r : Run) : Moment := { r.moment with asked := r.moment.asked + 2 }

variable [Confidence κ]

namespace Store

variable {changed : List (Contribution κ)} {removed : List String} {cancelled : Bool}

/-! ### Before any change -/

def refusal? (changed : List (Contribution κ)) (cancelled : Bool) : Option (StoreError κ) :=
  changed.findSome? (fun c => c.fault?.map (.unsound c.path))
    <|> if cancelled then some .cancelled else none

theorem refusal?_eq_none_iff :
    refusal? changed cancelled = none ↔ (∀ c ∈ changed, c.IsSound) ∧ cancelled = false := by
  rw [refusal?, Option.orElse_eq_orElse, Option.orElse_eq_or, Option.or_eq_none_iff,
    findSome?_eq_none_iff]
  simp only [Option.map_eq_none_iff, Contribution.IsSound]
  cases cancelled <;> simp

theorem refusal?_of_isSound (h : ∀ c ∈ changed, c.IsSound) (cancelled : Bool) :
    refusal? changed cancelled = if cancelled then some .cancelled else none := by
  have hnone : changed.findSome? (fun c => c.fault?.map (StoreError.unsound c.path)) = none := by
    rw [findSome?_eq_none_iff]
    intro c hc
    rw [h c hc]
    rfl
  rw [refusal?, hnone]
  rfl

namespace Action

theorem validate_eq (changed : List (Contribution κ)) (s : Session κ) :
    validate changed s = (changed.findSome? fun c => c.fault?.map (.unsound c.path)).elim
      (.ok () s) fun e => .error e s := by
  induction changed with
  | nil => rfl
  | cons c changed ih =>
    rw [findSome?_cons, validate]
    cases c.fault? with
    | none => exact ih
    | some fault => rfl

omit [Confidence κ] in
theorem poll_eq (token : CancelToken) (s : Session κ) :
    poll token s = if token.isSet (s.run.ask token).2.moment then
      .error .cancelled { s with run := (s.run.ask token).2 }
    else .ok () { s with run := (s.run.ask token).2 } := rfl

/-- **Checked and polled, a batch goes on, or it is refused** and the store is as it was. -/
theorem vet_eq (changed : List (Contribution κ)) (token : CancelToken) (s : Session κ) :
    ∃ run, (token.isSet run.moment → token.isSet s.run.polled) ∧
      vet changed token s = (refusal? changed (token.isSet run.moment)).elim
        (.ok () { s with run := run }) fun e => .error e { s with run := run } := by
  have hvalid := validate_eq changed s
  unfold refusal?
  cases hfault : changed.findSome? fun c => c.fault?.map (StoreError.unsound c.path) with
  | some e =>
    rw [hfault] at hvalid
    exact ⟨s.run, token.stays _ _ (Nat.le_refl _) (Nat.le_add_right _ _), bind_of_error hvalid⟩
  | none =>
    rw [hfault] at hvalid
    have hpolls : vet changed token s = (poll token >>= fun _ => poll token) s :=
      bind_of_ok hvalid
    -- the second poll is made only if the first lets the batch go on
    by_cases hset : token.isSet (s.run.ask token).2.moment
    · have hpoll := (poll_eq token s).trans (if_pos hset)
      refine ⟨(s.run.ask token).2, token.stays _ _ (Nat.le_refl _) (Nat.le_succ _),
        (hpolls.trans (bind_of_error hpoll)).trans ?_⟩
      rw [hset]
      rfl
    · have hpoll := (poll_eq token s).trans (if_neg hset)
      refine ⟨((s.run.ask token).2.ask token).2, id, (hpolls.trans (bind_of_ok hpoll)).trans ?_⟩
      rw [poll_eq]
      cases token.isSet ((s.run.ask token).2.ask token).2.moment <;> rfl

end Action

/-! ### Whole calls -/

def committed (s : Store κ) (changed : List (Contribution κ)) (removed : List String) :
    Store κ where
  graph := (s.ledger.commit s.graph changed removed).2.getD s.graph
  ledger := (s.ledger.commit s.graph changed removed).1

def rebuilt (s : Store κ) (changed : List (Contribution κ)) : Store κ :=
  let made := (Ledger.empty s.graph.version : Ledger κ).commit .empty changed []
  { graph := (made.2.getD (.empty (s.graph.version + 1))).inheritIntroduced s.graph
    ledger := made.2.elim { made.1 with version := s.graph.version + 1 } fun _ => made.1 }

namespace Action

/-- **A call is entered whole, or it is refused** and the store is as it was.  At most two polls lie
between its start and the moment at which that is clear. -/
def Enters (call : Action κ (Graph κ)) (changed : List (Contribution κ)) (token : CancelToken)
    (s : Session κ) (next : Store κ) : Prop :=
  ∃ run : Run, (token.isSet run.moment = true → token.isSet s.run.polled = true) ∧
    call s = (refusal? changed (token.isSet run.moment)).elim
      (.ok next.graph { store := next, run := run }) fun e => .error e { s with run := run }

theorem enters_vet {f : Unit → Action κ (Graph κ)} {token : CancelToken} {s : Session κ}
    {next : Store κ}
    (hf : ∀ run, f () { s with run := run } = .ok next.graph { store := next, run := run }) :
    (vet changed token >>= f).Enters changed token s next := by
  obtain ⟨run, hpolled, hrun⟩ := vet_eq changed token s
  refine ⟨run, hpolled, ?_⟩
  cases hr : refusal? changed (token.isSet run.moment) with
  | some e =>
    rw [hr] at hrun
    exact bind_of_error hrun
  | none =>
    rw [hr] at hrun
    exact (bind_of_ok hrun).trans (hf run)

theorem enters_applyChanges (changed : List (Contribution κ)) (removed : List String)
    (token : CancelToken) (s : Session κ) : (applyChanges changed removed token).Enters changed token s
      (s.store.committed changed removed) := by
  refine enters_vet fun run => ?_
  rw [committed]
  show ((s.store.ledger.commit s.store.graph changed removed).2.elim (pure s.store.graph)
    publish : Action κ (Graph κ)) _ = _
  cases (s.store.ledger.commit s.store.graph changed removed).2 <;> rfl

theorem enters_rebuild (changed : List (Contribution κ)) (token : CancelToken) (s : Session κ) :
    (rebuild changed token).Enters changed token s (s.store.rebuilt changed) :=
  enters_vet fun _ => rfl

theorem isSet_fixed (isSet : Bool) (m : Moment) : (CancelToken.fixed isSet).isSet m = isSet := by
  cases isSet <;> rfl

section Fixed

variable {call : Action κ (Graph κ)} {s next : Store κ}
  (h : call.Enters changed (.fixed cancelled) { store := s } next)

include h

theorem Enters.result_eq : call.result s = (refusal? changed cancelled).elim (.ok next) .error := by
  obtain ⟨run, -, hrun⟩ := h
  rw [result, hrun, isSet_fixed]
  cases refusal? changed cancelled <;> rfl

theorem Enters.leaves_eq : call.leaves s = (call.result s).toOption.getD s := by
  obtain ⟨run, -, hrun⟩ := h
  rw [leaves, result, hrun]
  cases refusal? changed ((CancelToken.fixed cancelled).isSet run.moment) <;> rfl

end Fixed

end Action

theorem applyChanges_eq_elim (s : Store κ) (changed : List (Contribution κ))
    (removed : List String) (cancelled : Bool) : s.applyChanges changed removed cancelled =
      (refusal? changed cancelled).elim (.ok (s.committed changed removed)) .error :=
  (Action.enters_applyChanges changed removed (.fixed cancelled) { store := s }).result_eq

theorem rebuild_eq_elim (s : Store κ) (changed : List (Contribution κ)) (cancelled : Bool) :
    s.rebuild changed cancelled =
      (refusal? changed cancelled).elim (.ok (s.rebuilt changed)) .error :=
  (Action.enters_rebuild changed (.fixed cancelled) { store := s }).result_eq

end Store

/-! ### Restoring -/

/-- **A document is restored whole, or it is refused** and the store is as it was. -/
theorem Store.Action.restore_eq (d : Document κ) (s : Store κ) :
    restore d s = d.refusal?.elim (.ok d.store.graph d.store) fun e => .error e s := by
  rw [restore]
  cases d.refusal? <;> rfl

theorem Store.restore_eq_elim (d : Document κ) :
    Store.restore d = d.refusal?.elim (.ok d.store) .error := by
  rw [Store.restore, Store.Action.restore_eq]
  cases d.refusal? <;> rfl

end AppAtlas
