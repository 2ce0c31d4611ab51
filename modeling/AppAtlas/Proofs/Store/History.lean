import AppAtlas.Proofs.Store.Calls
import AppAtlas.Proofs.Store.MadeOf

/-!
# Histories of a store

A store changes by calls, each of which is entered as a whole or refused.  What is in force after
some calls is found without the store: `Contributions.after` keeps for each path what was given last
and not removed since.  `Store.Holds` says that a store holds contributions, and each call takes a
store that holds some to one that holds those after the call.

* `Store.Holds.runAll`, `Store.holds_afterCalls`: so after any calls, to any store or to a new one,
  the store holds the contributions in force.
* `graph_afterCalls_madeOf_survivors`: after any calls the graph is made of the contributions in
  force, and it is the one that a new store makes of them.
-/

namespace AppAtlas

open List Std OrderedMap Contributions

variable {κ : Type} [Confidence κ] {owner : FileKey → String} {t : Contributions κ}

/-! ### Graphs that show the same -/

theorem Graph.shows_empty (v : Nat) : (Graph.empty v : Graph κ).Shows ∅ := by
  have hnone : ∀ {β : Type} (f : Contribution κ → Option β),
      (∅ : Contributions κ).collect f = ∅ := by
    intro β f
    refine collect_eq_empty_iff.mpr fun p c hc => ?_
    rw [ExtTreeMap.getElem?_empty] at hc
    cases hc
  constructor
  · intro id
    rw [Contributions.node?, Contributions.defining, Contributions.standingIn, hnone, hnone]
    simp [Graph.empty]
  · intro id
    rw [Contributions.edge?, Contributions.parts, hnone]
    simp [Graph.empty]
  · intro id
    rw [definers?, defining, hnone]
    simp [Graph.empty]
  · intro p
    simp [Graph.empty]
  · intro k v
    simp [Graph.empty]

/-- **Graphs that show the same contributions are the same**, up to versions. -/
theorem Graph.Shows.unique {g g' : Graph κ} (h : g.Shows t) (h' : g'.Shows t) :
    g.nodes = g'.nodes ∧ g.edges = g'.edges ∧ g.definers = g'.definers ∧
      g.files = g'.files ∧ g.provenance = g'.provenance := by
  refine ⟨ExtTreeMap.ext_getElem? fun {id} => ?_, ExtTreeMap.ext_getElem? fun {id} => ?_,
    ExtTreeMap.ext_getElem? fun {id} => ?_, ExtTreeMap.ext_getElem? fun {p} => ?_,
    ExtTreeMap.ext_getElem? fun {k} => ?_⟩
  · rw [h.nodes, h'.nodes]
  · rw [h.edges, h'.edges]
  · rw [h.definers, h'.definers]
  · rw [h.files, h'.files]
  · ext v
    rw [h.provenance, h'.provenance]

theorem Graph.Shows.provenance_eq_of_same {g g' : Graph κ} {t' : Contributions κ} (h : g.Shows t)
    (h' : g'.Shows t') (hsame : ∀ p : String, t[p]?.map (fun c => (c.key, c.provenance)) =
      t'[p]?.map (fun c => (c.key, c.provenance))) :
    g.provenance = g'.provenance ∧ g.files = g'.files := by
  constructor
  · have hlisted : ∀ (t : Contributions κ) (k : FileKey) (v : Provenance),
        (∃ (p : String) (c : Contribution κ), t[p]? = some c ∧ c.key = k ∧ c.provenance = v) ↔
          ∃ p : String, t[p]?.map (fun c => (c.key, c.provenance)) = some (k, v) := by
      intro t k v
      simp only [Option.map_eq_some_iff, Prod.mk.injEq]
    refine ExtTreeMap.ext_getElem? fun {k} => ?_
    ext v
    rw [h.provenance, h'.provenance, hlisted, hlisted]
    simp only [hsame]
  · refine ExtTreeMap.ext_getElem? fun {p} => ?_
    have hkey := congrArg (Option.map Prod.fst) (hsame p)
    rw [Option.map_map, Option.map_map] at hkey
    rw [h.files, h'.files]
    exact hkey

/-! ### Stores that hold contributions -/

/-- **A store is current** if its graph dates just the concrete nodes and its ledger counts on from
the version of the graph. -/
structure Store.Current (s : Store κ) : Prop where
  dated : s.graph.Dated
  version : s.ledger.version = s.graph.version

/-- **A store holds contributions** if its ledger records them and its graph shows them. -/
structure Store.Holds (s : Store κ) (owner : FileKey → String) (t : Contributions κ) : Prop where
  records : s.ledger.Records t
  keyed : t.Keyed owner
  shows : s.graph.Shows t
  dated : s.graph.Dated
  version : s.ledger.version = s.graph.version

namespace Store

variable {s s' : Store κ} {changed : List (Contribution κ)} {removed : List String}
  {cancelled : Bool}

theorem holds_empty (owner : FileKey → String) : (empty : Store κ).Holds owner ∅ where
  records := Ledger.records_empty 0
  keyed := keyed_empty
  shows := Graph.shows_empty 0
  dated := Graph.dated_empty 0
  version := rfl

theorem Holds.mem_contributions (hs : s.Holds owner t) {c : Contribution κ} :
    c ∈ s.ledger.contributions.values ↔ t[c.path]? = some c := by
  simp only [mem_values, hs.records.getElem?_contributions, exists_eq_left']

theorem applyChanges_eq (h : s.applyChanges changed removed cancelled = .ok s') :
    refusal? changed cancelled = none ∧ s' = s.committed changed removed := by
  rw [applyChanges_eq_elim] at h
  cases hr : refusal? changed cancelled with
  | some e => rw [hr] at h; cases h
  | none =>
    rw [hr] at h
    exact ⟨rfl, (Except.ok.inj h).symm⟩

omit [Confidence κ] in
theorem current_empty : (empty : Store κ).Current := ⟨Graph.dated_empty 0, rfl⟩

theorem Holds.current (hs : s.Holds owner t) : s.Current := ⟨hs.dated, hs.version⟩

/-- **Changes leave the graph or make one of the next version**, which succeeds the one before. -/
theorem Current.applyChanges (hs : s.Current)
    (h : s.applyChanges changed removed cancelled = .ok s') :
    s'.Current ∧ s'.graph.Succeeds s.graph ∧
      (s'.graph = s.graph ∨ s'.graph.version = s.graph.version + 1) := by
  obtain ⟨-, rfl⟩ := applyChanges_eq h
  rw [committed]
  have hsucceeds := Ledger.commit_succeeds s.ledger changed removed hs.dated
  rcases Ledger.commit_version s.ledger s.graph changed removed with ⟨hnone, hv⟩ | ⟨g, hg, hgv, hv⟩
  · rw [hnone] at hsucceeds ⊢
    exact ⟨⟨hs.dated, hv.trans hs.version⟩, hsucceeds, .inl rfl⟩
  · rw [hg] at hsucceeds ⊢
    exact ⟨⟨hsucceeds.dated hs.dated, hv.trans hgv.symm⟩, hsucceeds,
      .inr (hgv.trans (congrArg (· + 1) hs.version))⟩

/-- **Changes take a store to one that holds the contributions after them**, in a graph that
succeeds the one before. -/
theorem Holds.applyChanges (hs : s.Holds owner t) (hc : ∀ c ∈ changed, owner c.key = c.path)
    (h : s.applyChanges changed removed cancelled = .ok s') :
    s'.Holds owner (t.after changed removed) ∧ s'.graph.Succeeds s.graph := by
  obtain ⟨hcurrent, hsucceeds, -⟩ := hs.current.applyChanges h
  obtain ⟨-, rfl⟩ := applyChanges_eq h
  obtain ⟨hrecords, hkeyed, hshows⟩ := hs.records.commit hs.keyed hc removed hs.shows
  exact ⟨⟨hrecords, hkeyed, hshows, hcurrent.dated, hcurrent.version⟩, hsucceeds⟩

theorem inheritIntroduced_shows {g old : Graph κ} (h : g.Shows t) :
    (g.inheritIntroduced old).Shows t :=
  ⟨h.nodes, h.edges, h.definers, h.files, h.provenance⟩

omit [Confidence κ] in
/-- A graph made anew takes over the versions of an older one as if it succeeded it. -/
theorem inheritIntroduced_succeeds {g old : Graph κ} {v : Nat}
    (h : g.Succeeds (Graph.empty v)) (hold : old.Dated) :
    (g.inheritIntroduced old).Succeeds old := by
  intro id
  have hid := h id
  have hempty : (Graph.empty v : Graph κ).concreteAt id = false := by
    simp [Graph.empty, Graph.concreteAt]
  rw [hempty] at hid
  show (g.introduced.map fun id v => (old.introduced? id).getD v)[id]? =
    if g.concreteAt id then if old.concreteAt id then old.introduced[id]? else some g.version
    else none
  rw [ExtTreeMap.getElem?_map, hid]
  cases g.concreteAt id with
  | false => rfl
  | true =>
    have hdated := hold id
    rw [if_pos rfl, if_pos rfl, if_neg Bool.false_ne_true, Option.map_some, Graph.introduced?,
      ExtTreeMap.get?_eq_getElem?]
    cases hold' : old.concreteAt id with
    | false =>
      rw [hold', Option.isSome_eq_false_iff, Option.isNone_iff_eq_none] at hdated
      rw [hdated]
      rfl
    | true =>
      rw [hold', Option.isSome_iff_exists] at hdated
      obtain ⟨w, hw⟩ := hdated
      rw [hw]
      rfl

/-- A rebuilt store comes from a commit to an empty graph, with the versions of the old nodes. -/
theorem rebuild_eq (h : s.rebuild changed cancelled = .ok s') : refusal? changed cancelled = none ∧
      ((∃ g, ((Ledger.empty s.graph.version).commit .empty changed []).2 = some g ∧
          s' = { graph := g.inheritIntroduced s.graph
                 ledger := ((Ledger.empty s.graph.version).commit .empty changed []).1 }) ∨
        ((Ledger.empty s.graph.version).commit .empty changed []).2 = none ∧
          s' = { graph := .empty (s.graph.version + 1)
                 ledger := { ((Ledger.empty s.graph.version).commit .empty changed []).1 with
                   version := s.graph.version + 1 } }) := by
  rw [rebuild_eq_elim] at h
  cases hr : refusal? changed cancelled with
  | some e => rw [hr] at h; cases h
  | none =>
    rw [hr] at h
    refine ⟨rfl, ?_⟩
    cases h
    rw [rebuilt]
    cases ((Ledger.empty s.graph.version).commit .empty changed []).2 with
    | some g => exact .inl ⟨g, rfl, rfl⟩
    | none =>
      have hnone : (∅ : ExtTreeMap NodeId Nat compare).map
          (fun id v => (s.graph.introduced? id).getD v) = ∅ :=
        ExtTreeMap.ext_getElem? fun {id} => by simp
      have hempty : (Graph.empty (s.graph.version + 1)).inheritIntroduced s.graph =
          .empty (s.graph.version + 1) := by
        rw [Graph.inheritIntroduced, Graph.empty, hnone]
      exact .inr ⟨rfl, by rw [Option.getD_none, hempty]; rfl⟩

/-- **Rebuilding makes a graph of the next version**, which succeeds the one before. -/
theorem Current.rebuild (hs : s.Current) (h : s.rebuild changed cancelled = .ok s') :
    s'.Current ∧ s'.graph.Succeeds s.graph ∧ s'.graph.version = s.graph.version + 1 := by
  have hsucceeds := Ledger.commit_succeeds (Ledger.empty s.graph.version) changed []
    (Graph.dated_empty 0)
  have hversion := Ledger.commit_version (Ledger.empty s.graph.version) Graph.empty changed []
  obtain ⟨-, ⟨g, hg, rfl⟩ | ⟨-, rfl⟩⟩ := rebuild_eq h
  · rw [hg] at hsucceeds hversion
    have hinherit := inheritIntroduced_succeeds hsucceeds hs.dated
    rcases hversion with ⟨hnone, -⟩ | ⟨g', hg', hgv, hlv⟩
    · cases hnone
    · cases hg'
      exact ⟨⟨hinherit.dated hs.dated, hlv.trans hgv.symm⟩, hinherit, hgv⟩
  · -- nothing was changed, so the graph is the empty one of the next version
    have hempty : ∀ id, (Graph.empty (s.graph.version + 1) : Graph κ).concreteAt id = false := by
      intro id
      simp [Graph.empty, Graph.concreteAt]
    refine ⟨⟨Graph.dated_empty _, rfl⟩, fun id => ?_, rfl⟩
    rw [hempty id]
    simp [Graph.empty]

/-- **Rebuilding takes a store to one that holds just the contributions given**, in a graph that
succeeds the one before. -/
theorem Holds.rebuild (hs : s.Holds owner t) (hc : ∀ c ∈ changed, owner c.key = c.path)
    (h : s.rebuild changed cancelled = .ok s') :
    s'.Holds owner (after ∅ changed []) ∧ s'.graph.Succeeds s.graph := by
  have hstart : (Ledger.empty s.graph.version : Ledger κ).Records ∅ := Ledger.records_empty _
  obtain ⟨hrecords, hkeyed, hshows⟩ :=
    hstart.commit keyed_empty hc [] (Graph.shows_empty 0)
  obtain ⟨hcurrent, hsucceeds, -⟩ := hs.current.rebuild h
  refine ⟨?_, hsucceeds⟩
  obtain ⟨-, ⟨g, hg, rfl⟩ | ⟨hnone, rfl⟩⟩ := rebuild_eq h
  · rw [hg] at hshows
    exact ⟨hrecords, hkeyed, inheritIntroduced_shows hshows, hcurrent.dated, hcurrent.version⟩
  · rw [hnone] at hshows
    exact ⟨hrecords.withVersion _, hkeyed,
      ⟨hshows.nodes, hshows.edges, hshows.definers, hshows.files, hshows.provenance⟩,
      hcurrent.dated, hcurrent.version⟩

end Store

/-! ### Calls -/

inductive Store.Call (κ : Type) where
  | apply (c : Contribution κ)
  | applyChanges (changed : List (Contribution κ)) (removed : List String) (cancelled : Bool)
  | remove (path : String)
  | rebuild (changed : List (Contribution κ)) (cancelled : Bool)

namespace Store.Call

def act : Call κ → Action κ (Graph κ)
  | apply c => .applyChanges [c] [] .never
  | applyChanges changed removed cancelled => .applyChanges changed removed (.fixed cancelled)
  | remove path => .applyChanges [] [path] .never
  | rebuild changed cancelled => .rebuild changed (.fixed cancelled)

def run (s : Store κ) : Call κ → Except (StoreError κ) (Store κ)
  | apply c => s.apply c
  | applyChanges changed removed cancelled => s.applyChanges changed removed cancelled
  | remove path => s.remove path
  | rebuild changed cancelled => s.rebuild changed cancelled

def given : Call κ → List (Contribution κ)
  | apply c => [c]
  | applyChanges changed _ _ => changed
  | remove _ => []
  | rebuild changed _ => changed

def isCancelled : Call κ → Bool
  | apply _ => false
  | applyChanges _ _ cancelled => cancelled
  | remove _ => false
  | rebuild _ cancelled => cancelled

def Enters (call : Call κ) : Prop := (∀ c ∈ call.given, c.IsSound) ∧ call.isCancelled = false

instance (call : Call κ) : Decidable call.Enters := inferInstanceAs (Decidable (_ ∧ _))

def enter (t : Contributions κ) : Call κ → Contributions κ
  | apply c => t.after [c] []
  | applyChanges changed removed _ => t.after changed removed
  | remove path => t.after [] [path]
  | rebuild changed _ => after ∅ changed []

def next (s : Store κ) : Call κ → Store κ
  | apply c => s.committed [c] []
  | applyChanges changed removed _ => s.committed changed removed
  | remove path => s.committed [] [path]
  | rebuild changed _ => s.rebuilt changed

section

variable (s : Store κ) (call : Call κ)

/-- **A call is entered whole, or it is refused** and the store is as it was. -/
theorem enters_act :
    call.act.Enters call.given (.fixed call.isCancelled) { store := s } (call.next s) := by
  cases call with
  | apply c => exact Action.enters_applyChanges [c] [] _ _
  | applyChanges changed removed cancelled => exact Action.enters_applyChanges changed removed _ _
  | remove path => exact Action.enters_applyChanges [] [path] _ _
  | rebuild changed cancelled => exact Action.enters_rebuild changed _ _

theorem result_act : call.act.result s = call.run s := by
  cases call <;> rfl

/-- **The store that a call leaves**, which nothing puts back, is the one before if the call is
refused. -/
theorem leaves_act : call.act.leaves s = (call.run s).toOption.getD s := by
  rw [← result_act]
  exact (call.enters_act s).leaves_eq

theorem run_isOk_iff : (call.run s).isOk = call.Enters := by
  rw [← result_act, (call.enters_act s).result_eq, Enters, ← refusal?_eq_none_iff]
  cases refusal? call.given call.isCancelled <;> simp [Except.isOk, Except.toBool]

end

/-- **A call that is entered takes a store to one that holds the contributions after it.** -/
theorem holds_run {s s' : Store κ} {call : Call κ} (hs : s.Holds owner t)
    (hc : ∀ c ∈ call.given, owner c.key = c.path) (h : call.run s = .ok s') :
    s'.Holds owner (call.enter t) := by
  cases call with
  | apply c => exact (hs.applyChanges hc h).1
  | applyChanges changed removed cancelled => exact (hs.applyChanges hc h).1
  | remove path =>
    have h : s.applyChanges [] [path] = .ok s' := h
    exact (hs.applyChanges hc h).1
  | rebuild changed cancelled => exact (hs.rebuild hc h).1

omit [Confidence κ] in
theorem forall_enter {call : Call κ} {P : Contribution κ → Prop} (hgiven : ∀ c ∈ call.given, P c)
    (ht : ∀ (p : String) (c : Contribution κ), t[p]? = some c → P c) :
    ∀ (p : String) (c : Contribution κ), (call.enter t)[p]? = some c → P c := by
  intro p c hc
  cases call with
  | apply d => exact (mem_of_after hc).elim (hgiven c) (ht p c)
  | applyChanges changed removed cancelled =>
    exact (mem_of_after hc).elim (hgiven c) (ht p c)
  | remove path => exact (mem_of_after hc).elim (hgiven c) (ht p c)
  | rebuild changed cancelled =>
    refine (mem_of_after hc).elim (hgiven c) fun hnone => ?_
    rw [ExtTreeMap.getElem?_empty] at hnone
    cases hnone

theorem holds_step {s : Store κ} {call : Call κ} (hs : s.Holds owner t)
    (hc : call.Enters → ∀ c ∈ call.given, owner c.key = c.path) :
    (call.act.leaves s).Holds owner (if call.Enters then call.enter t else t) := by
  have hok := run_isOk_iff s call
  rw [leaves_act]
  by_cases henters : call.Enters
  · rw [if_pos henters]
    rw [eq_true henters, eq_iff_iff, iff_true] at hok
    cases hr : call.run s with
    | error e => rw [hr] at hok; exact absurd hok (by simp [Except.isOk, Except.toBool])
    | ok s' => exact holds_run hs (hc henters) hr
  · rw [if_neg henters]
    rw [eq_false henters, eq_iff_iff, iff_false] at hok
    cases hr : call.run s with
    | ok s' => rw [hr] at hok; exact absurd rfl hok
    | error e => exact hs

end Store.Call

def Store.runAll (s : Store κ) (calls : List (Store.Call κ)) : Store κ :=
  calls.foldl (fun s call => call.act.leaves s) s

def Contributions.enterAll (t : Contributions κ) (calls : List (Store.Call κ)) : Contributions κ :=
  calls.foldl (fun t call => if call.Enters then call.enter t else t) t

theorem Contributions.enterAll_cons (t : Contributions κ) (call : Store.Call κ)
    (calls : List (Store.Call κ)) :
    t.enterAll (call :: calls) = (if call.Enters then call.enter t else t).enterAll calls := rfl

/-- **After any more calls a store holds the contributions then in force.** -/
theorem Store.Holds.runAll {s : Store κ} (hs : s.Holds owner t) {calls : List (Store.Call κ)}
    (hc : ∀ call ∈ calls, ∀ c ∈ call.given, owner c.key = c.path) :
    (s.runAll calls).Holds owner (t.enterAll calls) := by
  induction calls generalizing s t with
  | nil => exact hs
  | cons call calls ih =>
    exact ih (Store.Call.holds_step hs fun _ => hc call mem_cons_self)
      fun call' hcall' => hc call' (mem_cons_of_mem call hcall')

/-- Calls enter only what is sound: what is true of that and of all that is in force is true after
them. -/
theorem Contributions.forall_enterAll (calls : List (Store.Call κ)) {P : Contribution κ → Prop}
    (hsound : ∀ c : Contribution κ, c.IsSound → P c)
    (ht : ∀ (p : String) (c : Contribution κ), t[p]? = some c → P c) :
    ∀ (p : String) (c : Contribution κ), (t.enterAll calls)[p]? = some c → P c := by
  induction calls generalizing t with
  | nil => exact ht
  | cons call calls ih =>
    rw [enterAll_cons]
    refine ih ?_
    split
    · next henters =>
      exact Store.Call.forall_enter (fun c hc => hsound c (henters.1 c hc)) ht
    · exact ht

theorem Contributions.sound_enterAll (calls : List (Store.Call κ)) :
    ∀ (p : String) (c : Contribution κ),
      ((∅ : Contributions κ).enterAll calls)[p]? = some c → c.IsSound := by
  refine forall_enterAll calls (fun _ h => h) fun p c hc => ?_
  rw [ExtTreeMap.getElem?_empty] at hc
  cases hc

/-- The store after some calls to a new one, entered or refused. -/
def Store.afterCalls (calls : List (Store.Call κ)) : Store κ := Store.empty.runAll calls

/-- The contributions in force after some calls: for each path what was given last and not removed
since. -/
def survivors (calls : List (Store.Call κ)) : Contributions κ :=
  (∅ : Contributions κ).enterAll calls

/-- **After any calls the store holds the contributions in force**, and they are all sound. -/
theorem Store.holds_afterCalls {calls : List (Store.Call κ)}
    (hc : ∀ call ∈ calls, ∀ c ∈ call.given, owner c.key = c.path) :
    (Store.afterCalls calls).Holds owner (survivors calls) ∧
      ∀ (p : String) (c : Contribution κ), (survivors calls)[p]? = some c → c.IsSound :=
  ⟨(Store.holds_empty owner).runAll hc, sound_enterAll calls⟩

/-! ### The graph of the contributions in force -/

omit [Confidence κ] in
/-- Versions of files that differ whenever their paths do tell their paths. -/
theorem exists_owner {cs : List (Contribution κ)}
    (h : ∀ c ∈ cs, ∀ d ∈ cs, c.key = d.key → c.path = d.path) :
    ∃ owner : FileKey → String, ∀ c ∈ cs, owner c.key = c.path := by
  refine ⟨fun k => ((cs.find? (·.key == k)).map (·.path)).getD "", fun c hc => ?_⟩
  cases hd : cs.find? (·.key == c.key) with
  | none =>
    have := find?_eq_none.mp hd c hc
    exact absurd this (by simp)
  | some d =>
    have hkey : d.key = c.key := by simpa using find?_some hd
    show ((cs.find? (·.key == c.key)).map (·.path)).getD "" = c.path
    rw [hd]
    exact h d (mem_of_find?_eq_some hd) c hc hkey

omit [Confidence κ] in
theorem Contributions.Keyed.after_values (h : t.Keyed owner) :
    after ∅ t.values [] = t := by
  apply ExtTreeMap.ext_getElem?
  intro p
  have hmem : ∀ d, d ∈ t.values ↔ t[d.path]? = some d := by
    intro d
    rw [mem_values]
    constructor
    · rintro ⟨q, hq⟩
      rw [(h q d hq).1]
      exact hq
    · exact fun hd => ⟨d.path, hd⟩
  rw [getElem?_after, ExtTreeMap.getElem?_empty, ite_self, Option.or_none]
  cases hd : t.values.reverse.find? (·.path == p) with
  | some d =>
    have hpath : d.path = p := by simpa using find?_some hd
    have hin := mem_reverse.mp (mem_of_find?_eq_some hd)
    rw [← hpath, (hmem d).mp hin]
  | none =>
    cases hc : t[p]? with
    | none => rfl
    | some c =>
      have hcp : c.path = p := (h p c hc).1
      have hin : c ∈ t.values.reverse := mem_reverse.mpr ((hmem c).mpr (by rw [hcp, hc]))
      have := find?_eq_none.mp hd c hin
      exact absurd this (by simp [hcp])

/-- A new store can be filled with the contributions that a store holds, and then has the same
graph, up to versions. -/
theorem Store.Holds.fromScratch {s : Store κ} (hs : s.Holds owner t)
    (hsound : ∀ (p : String) (c : Contribution κ), t[p]? = some c → c.IsSound) :
    ∃ s₁ : Store κ, Store.empty.applyChanges t.values [] = .ok s₁ ∧
      s.graph.nodes = s₁.graph.nodes ∧ s.graph.edges = s₁.graph.edges ∧
      s.graph.definers = s₁.graph.definers ∧ s.graph.files = s₁.graph.files ∧
      s.graph.provenance = s₁.graph.provenance := by
  have haccepted : refusal? t.values false = none := by
    refine refusal?_eq_none_iff.mpr ⟨fun c hc => ?_, rfl⟩
    obtain ⟨p, hp⟩ := mem_values.mp hc
    exact hsound p c hp
  have hgiven : ∀ c ∈ t.values, owner c.key = c.path := fun c hc => hs.keyed.owner_eq hc
  have hok : ∃ s₁ : Store κ, Store.empty.applyChanges t.values [] = .ok s₁ := by
    rw [Store.applyChanges_eq_elim, haccepted]
    exact ⟨_, rfl⟩
  obtain ⟨s₁, hs₁⟩ := hok
  have hholds := ((Store.holds_empty owner).applyChanges hgiven hs₁).1
  rw [hs.keyed.after_values] at hholds
  exact ⟨s₁, hs₁, hs.shows.unique hholds.shows⟩

/-- **The graph after any calls is made of the contributions in force**, and it is the graph that a
new store makes of them. -/
theorem graph_afterCalls_madeOf_survivors [Confidence.Ordered κ] (calls : List (Store.Call κ))
    (hkeys : ∀ c ∈ calls.flatMap (·.given), ∀ d ∈ calls.flatMap (·.given),
      c.key = d.key → c.path = d.path) :
    (Store.afterCalls calls).graph.MadeOf (survivors calls) ∧
    ∃ s₁ : Store κ, Store.empty.applyChanges (survivors calls).values [] = .ok s₁ ∧
      (Store.afterCalls calls).graph.nodes = s₁.graph.nodes ∧
      (Store.afterCalls calls).graph.edges = s₁.graph.edges ∧
      (Store.afterCalls calls).graph.definers = s₁.graph.definers ∧
      (Store.afterCalls calls).graph.files = s₁.graph.files ∧
      (Store.afterCalls calls).graph.provenance = s₁.graph.provenance := by
  obtain ⟨owner, howner⟩ := exists_owner hkeys
  obtain ⟨hholds, hsound⟩ := Store.holds_afterCalls fun call hcall c hc =>
    howner c (List.mem_flatMap.mpr ⟨call, hcall, hc⟩)
  exact ⟨hholds.shows.madeOf hsound, hholds.fromScratch hsound⟩

/-- Two files have a statement that reads a table, and a third defines the table.  The second file
is removed and comes back surer of the reading; that the first is removed is called off. -/
def tableHistory : List (Store.Call Rat) :=
  let stub := Node.stub .table "orders" "orders"
  let query := { Node.stub .statement "find" "find" with kind := .statement, file := some "a.sql" }
  let reading := fun (key path : String) (confidence : Rat) =>
    { key := ⟨key⟩, path := path, nodes := [query], placeholders := [stub]
      edges := [.of query.id stub.id .reads confidence { file := path, line := 1 }] :
        Contribution Rat }
  [.apply (reading "1" "a.sql" 0.5), .applyChanges [reading "2" "b.sql" 0.25] [] false,
    .remove "b.sql",
    .apply { key := ⟨"3"⟩, path := "c.ddl"
             nodes := [{ stub with kind := .table, file := some "c.ddl" }] },
    .apply (reading "4" "b.sql" 0.75), .applyChanges [] ["a.sql"] true]

theorem graph_tableHistory_madeOf_survivors :
    (survivors tableHistory).values.map (·.key.text) = ["1", "4", "3"] ∧
    ((Store.afterCalls tableHistory).graph.outgoing (.of .statement "find")).map
      (fun e => (e.confidence, e.evidence.map (·.file))) = [(0.75, ["a.sql", "b.sql"])] ∧
    ((Store.afterCalls tableHistory).graph.lookup (.table "orders")).map (·.file) =
      [some "c.ddl"] ∧
    (Store.afterCalls tableHistory).graph.MadeOf (survivors tableHistory) ∧
    ∃ s₁ : Store Rat, Store.empty.applyChanges (survivors tableHistory).values [] = .ok s₁ ∧
      (Store.afterCalls tableHistory).graph.nodes = s₁.graph.nodes ∧
      (Store.afterCalls tableHistory).graph.edges = s₁.graph.edges ∧
      (Store.afterCalls tableHistory).graph.definers = s₁.graph.definers ∧
      (Store.afterCalls tableHistory).graph.files = s₁.graph.files ∧
      (Store.afterCalls tableHistory).graph.provenance = s₁.graph.provenance :=
  ⟨by decide +kernel, by decide +kernel, by decide +kernel,
    graph_afterCalls_madeOf_survivors tableHistory (by decide +kernel)⟩

end AppAtlas
