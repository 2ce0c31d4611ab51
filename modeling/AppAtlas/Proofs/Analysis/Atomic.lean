import AppAtlas.Proofs.Analysis.Dependents

/-!
# Calls that fail

A call to an analyzer, or to the store it works on, is entered whole or not at all.  If it fails,
the graph, the ledger and the findings are those before the call, so the saved document is too.
Between the two passes of an update there is one more place to stop: there the first pass stays as
it is, the second leaves no trace, and all files that it would have resolved again are listed.

Since a token that is set stays set, what became of an update can be told from the last moment of
its run alone: the token is set there exactly if one of the passes was dropped.

* `Analyzer.InUse`: the analyzers that calls lead to.
* `calls_are_atomic`: a call that fails leaves everything as it was and has a reason to fail, and an
  update that drops its second pass has entered the first and lists the dependents.
-/

namespace AppAtlas

open Std OrderedMap

variable {κ : Type}

namespace Analyzer

/-! ### Findings stand under their paths -/

/-- Findings stand under their own paths. -/
def Tidy (cache : ExtTreeMap String (Extracted κ) compare) : Prop :=
  ∀ (p : String) (e : Extracted κ), cache[p]? = some e → e.findings.path = p

theorem tidy_empty : Tidy (∅ : ExtTreeMap String (Extracted κ) compare) := by
  intro p e he
  rw [ExtTreeMap.getElem?_empty] at he
  cases he

theorem Tidy.remember {cache : ExtTreeMap String (Extracted κ) compare} (h : Tidy cache)
    (gone : List String) (files : List (Extracted κ)) :
    Tidy (remember (forget cache gone) files) := by
  intro p e he
  rw [getElem?_remember, Option.or_eq_some_iff] at he
  rcases he with hfound | ⟨-, hleft⟩
  · have hpath := List.find?_some hfound
    exact eq_of_beq hpath
  · split at hleft
    · cases hleft
    · exact h p e hleft

/-! ### Calls -/

/-- Calls to the store of an analyzer, and to the analyzer.  What is to be loaded could be read, or
not. -/
inductive Request (κ : Type) where
  | applyChanges (changed : List (Contribution κ)) (removed : List String) (token : CancelToken)
  | rebuildStore (changed : List (Contribution κ)) (token : CancelToken)
  | restore (d : Document κ)
  | update (files : List SourceFile) (removed : List String) (token : CancelToken)
  | rebuild (files : List SourceFile) (token : CancelToken)
  | load (saved : Except (SaveError κ) (Document κ))

/-- Why a call failed. -/
inductive Failure (κ : Type) where
  | store (e : StoreError κ)
  | analysis (e : AnalysisError κ)
  | save (e : SaveError κ)

/-- The failure of a call and the state it leaves, whether it fails or not. -/
def left {σ ε α : Type} (place : σ → Analyzer κ) (failure : ε → Failure κ) :
    EStateM.Result ε σ α → Option (Failure κ) × Analyzer κ
  | .ok _ s => (none, place s)
  | .error e s => (some (failure e), place s)

def failure? (x : Analysis κ) : Option (Failure κ) :=
  match x.result with
  | .ok _ => none
  | .error e => some (.analysis e)

theorem failure?_eq_some {x : Analysis κ} {e : Failure κ} (h : failure? x = some e) :
    ∃ err, x.result = .error err := by
  rw [failure?] at h
  split at h
  · cases h
  · next err herr => exact ⟨err, herr⟩

end Analyzer

variable [Confidence κ]

/-- The contributions of a document can be entered and make its nodes and edges. -/
def Document.Restores (d : Document κ) : Prop :=
  d.Proper ∧ d.store.graph.nodes = ExtTreeMap.ofList (d.nodes.map fun n => (n.id, n)) compare ∧
    d.store.graph.edges = ExtTreeMap.ofList (d.edges.map fun e => (e.id, e)) compare

theorem Document.refusal?_of_restores {d : Document κ} (h : d.Restores) : d.refusal? = none := by
  have hrestore : Store.restore d = .ok d.store :=
    Store.restore_eq_ok_iff.mpr ⟨h.1, h.2.1, h.2.2, rfl⟩
  rw [Store.restore_eq_elim] at hrestore
  cases hr : d.refusal? with
  | none => rfl
  | some e => rw [hr] at hrestore; cases hrestore

namespace Analyzer

/-- What a call does: the failure, if it fails, and the state it leaves. -/
def perform (a : Analyzer κ) : Request κ → Option (Failure κ) × Analyzer κ
  | .applyChanges changed removed token =>
    left (fun s => { a with store := s.store }) .store
      (Store.Action.applyChanges changed removed token { store := a.store })
  | .rebuildStore changed token =>
    left (fun s => { a with store := s.store }) .store
      (Store.Action.rebuild changed token { store := a.store })
  | .restore d => left (fun s => { a with store := s }) .save (Store.Action.restore d a.store)
  | .update files removed token =>
    (failure? (a.update files removed token), (a.update files removed token).analyzer)
  | .rebuild files token => (failure? (a.rebuild files token), (a.rebuild files token).analyzer)
  | .load saved => left id .save (Action.load saved a)

/-- What a call has against it: something unsound or a token that is set when the store has polled
it twice, a document that was not read or does not restore, or a token that is set when the run
ends. -/
def Request.Blocked (a : Analyzer κ) : Request κ → Prop
  | .applyChanges changed _ token | .rebuildStore changed token =>
    ¬((∀ c ∈ changed, c.IsSound) ∧ token.isSet { starts := 0, asked := 2 } = false)
  | .restore d => ¬d.Restores
  | .update files removed token =>
    token.isSet (a.update files removed token).run.moment = true
  | .rebuild files token => token.isSet (a.rebuild files token).run.moment = true
  | .load saved => ¬∃ d : Document κ, saved = .ok d ∧ d.Restores

/-- **The analyzers in use**: those that calls lead to, from any store and without findings. -/
inductive InUse : Analyzer κ → Prop where
  | start (settings : Settings κ) (extractor : Extractor κ) (store : Store κ) :
    InUse { settings := settings, extractor := extractor, store := store }
  | perform {a : Analyzer κ} (ha : InUse a) (r : Request κ) : InUse (a.perform r).2

variable {a : Analyzer κ} {files : List SourceFile} {removed : List String} {token : CancelToken}

theorem InUse.update (ha : a.InUse) : (a.update files removed token).analyzer.InUse :=
  ha.perform (.update files removed token)

theorem load_eq (d : Document κ) (a : Analyzer κ) : Action.load (.ok d) a = d.refusal?.elim
      (.ok d.store.graph { a with store := d.store, cache := ∅ }) fun e => .error e a := by
  rw [Action.load]
  simp only [Store.Action.restore_eq]
  cases d.refusal? <;> rfl

/-- **Whatever calls lead to an analyzer**, its findings stand under their paths. -/
theorem InUse.tidy (ha : a.InUse) : Tidy a.cache := by
  induction ha with
  | start settings extractor store => exact tidy_empty
  | @perform a ha r ih =>
    cases r with
    | applyChanges changed removed token =>
      rw [Analyzer.perform]
      cases Store.Action.applyChanges changed removed token { store := a.store } <;> exact ih
    | rebuildStore changed token =>
      rw [Analyzer.perform]
      cases Store.Action.rebuild changed token { store := a.store } <;> exact ih
    | restore d =>
      rw [Analyzer.perform]
      cases Store.Action.restore d a.store <;> exact ih
    | load saved =>
      cases saved with
      | error e => exact ih
      | ok d =>
        rw [Analyzer.perform, load_eq]
        cases d.refusal? with
        | none => exact tidy_empty
        | some e => exact ih
    | update files removed token =>
      show Tidy (a.update files removed token).analyzer.cache
      rcases update_cases a files removed token with
        ⟨store, run, -, -, hupdate⟩ | ⟨⟨hsame, -⟩, -⟩
      · rw [hupdate]
        exact ih.remember _ _
      · rw [hsame]
        exact ih
    | rebuild files token =>
      show Tidy (a.rebuild files token).analyzer.cache
      rcases rebuild_cases a files token with ⟨store, run, -, hrebuild⟩ | ⟨⟨hsame, -⟩, -⟩
      · rw [hrebuild]
        exact tidy_empty.remember [] _
      · rw [hsame]
        exact ih

/-! ### Calls that fail -/

theorem unchanged_of_store_fails {call : Store.Action κ (Graph κ)} {next : Store κ}
    {changed : List (Contribution κ)} {e : Failure κ}
    (hcall : call.Enters changed token { store := a.store } next)
    (h : (left (fun s => { a with store := s.store }) .store (call { store := a.store })).1 =
      some e) :
    (left (fun s => { a with store := s.store }) .store (call { store := a.store })).2 = a ∧
      ¬((∀ c ∈ changed, c.IsSound) ∧ token.isSet { starts := 0, asked := 2 } = false) := by
  obtain ⟨run, hpolled, hrun⟩ := hcall
  cases hr : Store.refusal? changed (token.isSet run.moment) with
  | none =>
    rw [hrun, hr] at h
    exact absurd h (by simp [left])
  | some err =>
    refine ⟨by rw [hrun, hr]; rfl, fun ⟨hsound, hclear⟩ => ?_⟩
    have hset : token.isSet run.moment = false := by
      rw [← Bool.not_eq_true]
      exact fun hset => Bool.false_ne_true (hclear.symm.trans (hpolled hset))
    rw [Store.refusal?_eq_none_iff.mpr ⟨hsound, hset⟩] at hr
    cases hr

/-- **A call that fails leaves the state as it was**, and there is something against it. -/
theorem unchanged_of_fails {r : Request κ} {e : Failure κ} (h : (a.perform r).1 = some e) :
    (a.perform r).2 = a ∧ r.Blocked a := by
  cases r with
  | applyChanges changed removed token =>
    exact unchanged_of_store_fails
      (Store.Action.enters_applyChanges changed removed token { store := a.store }) h
  | rebuildStore changed token =>
    exact unchanged_of_store_fails (Store.Action.enters_rebuild changed token { store := a.store }) h
  | restore d =>
    rw [perform, Store.Action.restore_eq] at h ⊢
    cases hr : d.refusal? with
    | none => rw [hr] at h; exact absurd h (by simp [left])
    | some err =>
      refine ⟨rfl, fun hrestores => ?_⟩
      rw [d.refusal?_of_restores hrestores] at hr
      cases hr
  | load saved =>
    cases saved with
    | error err => exact ⟨rfl, fun ⟨d, hread, _⟩ => absurd hread (by simp)⟩
    | ok d =>
      rw [perform, load_eq] at h ⊢
      cases hr : d.refusal? with
      | none => rw [hr] at h; exact absurd h (by simp [left])
      | some err =>
        refine ⟨rfl, fun ⟨d', hread, hrestores⟩ => ?_⟩
        cases hread
        rw [d.refusal?_of_restores hrestores] at hr
        cases hr
  | update files removed token =>
    obtain ⟨err, herr⟩ := failure?_eq_some h
    rcases update_cases a files removed token with
      ⟨store, run, -, -, hupdate⟩ | ⟨⟨hsame, -⟩, hset⟩
    · rw [hupdate] at herr
      cases herr
    · exact ⟨hsame, hset⟩
  | rebuild files token =>
    obtain ⟨err, herr⟩ := failure?_eq_some h
    rcases rebuild_cases a files token with ⟨store, run, -, hrebuild⟩ | ⟨⟨hsame, -⟩, hset⟩
    · rw [hrebuild] at herr
      cases herr
    · exact ⟨hsame, hset⟩

/-! ### Updates that drop their second pass -/

def dependentPass (a : Analyzer κ) (files : List SourceFile) (removed : List String)
    (store : Store κ) : Resolved κ :=
  (a.between files removed store).resolved store.graph
    ((dependents store.graph (a.touchedKeys files removed)
      ((a.batchOutcomes files removed).map (·.path))).filterMap
        (a.between files removed store).cached?)

/-- **The second pass of an update is entered whole or not at all**, and then the token is set and
the dependents outside the batch are listed. -/
theorem lastPass_cases (ha : Tidy a.cache) (files : List SourceFile) (removed : List String)
    (store : Store κ) {run : Run} (hrun : token.isSet run.moment = false) :
    (token.isSet (a.lastPass files removed token store run).run.moment = false ∧
        store.applyChanges (a.dependentPass files removed store).changed [] =
          .ok (a.lastPass files removed token store run).store) ∨
      token.isSet (a.lastPass files removed token store run).run.moment ∧
        (a.lastPass files removed token store run).store = store ∧
        ∀ v ∈ store.graph.dependentsOf (a.touchedKeys files removed),
          (∀ o ∈ a.batchOutcomes files removed, o.path ≠ v.path) →
          v.path ∈ (a.lastPass files removed token store run).needsReanalysis := by
  have hcache : Tidy (a.between files removed store).cache := ha.remember _ _
  rcases (secondPass_spec (a.between files removed store) token (a.touchedKeys files removed)
      ((a.batchOutcomes files removed).map (·.path)) run).2 with
    ⟨hagain, -, hset⟩ | ⟨hstore, -, hlisted, hset⟩
  · exact .inl ⟨hset hrun, hagain⟩
  · refine .inr ⟨hset, hstore, fun v hv hbatch => hlisted hcache v.path ?_⟩
    refine mem_dependents_iff.mpr ⟨fun hmem => ?_, v, hv, rfl⟩
    obtain ⟨o, ho, hpath⟩ := List.mem_map.mp hmem
    exact hbatch o ho hpath

end Analyzer

open Analyzer

/-- **Failure and cancellation are atomic.**  A call that fails leaves the state as it was, and it
fails for a reason.  An update that returns has entered its first pass whole.  If the token is set
when its run ends, it has entered nothing else, and each file outside the batch that looked up a key
of what the batch changed is listed; if not, it has entered its second pass whole, too. -/
theorem calls_are_atomic {a : Analyzer κ} (ha : a.InUse) :
    (∀ (r : Request κ) (e : Failure κ), (a.perform r).1 = some e →
      (a.perform r).2 = a ∧ r.Blocked a) ∧
    ∀ (files : List SourceFile) (removed : List String) (token : CancelToken) (summary : Summary),
      (a.update files removed token).result = .ok summary →
      ∃ store : Store κ,
        a.store.applyChanges (a.firstPass files removed).changed (a.gone files removed) =
          .ok store ∧
        (token.isSet (a.update files removed token).run.moment = false ∧
            store.applyChanges (a.dependentPass files removed store).changed [] =
              .ok (a.update files removed token).analyzer.store ∨
          token.isSet (a.update files removed token).run.moment = true ∧
            (a.update files removed token).analyzer = a.between files removed store ∧
            ∀ (k : FileKey) (v : Provenance), store.graph.provenance[k]? = some v →
              (∃ key ∈ v.lookups, key ∈ a.touchedKeys files removed) →
              (∀ o ∈ summary.files, o.path ≠ v.path) → v.path ∈ summary.needsReanalysis) := by
  refine ⟨fun r e h => unchanged_of_fails h, fun files removed token summary hok => ?_⟩
  obtain ⟨store, run, happly, hrun, hanalyzer, hmoment, hneeds, hfiles⟩ := summary_of_update hok
  refine ⟨store, happly, ?_⟩
  rw [hmoment, hanalyzer, hneeds]
  rcases lastPass_cases ha.tidy files removed store hrun with
    hentered | ⟨hset, hstore, hlisted⟩
  · exact Or.inl hentered
  · refine Or.inr ⟨hset, ?_, fun k v hv hlookup hbatch => ?_⟩
    · rw [hstore]
      rfl
    · exact hlisted v (mem_dependentsOf.mpr ⟨⟨k, hv⟩, hlookup⟩) fun o ho =>
        hbatch o ((hfiles o).mpr (List.mem_append_left _ ho))

/-- The table that a reader waits for arrives.  Stopped while it is read, the update changes
nothing; stopped after it was entered, the update leaves the reader as it is, and lists it. -/
theorem stopped_table_lists_reader :
    (∃ e : Failure Rat, (readerSeen.perform (.update [schema] [] (.onStart 1))).1 = some e ∧
      (readerSeen.perform (.update [schema] [] (.onStart 1))).2 = readerSeen) ∧
    ∃ summary : Summary,
      (readerSeen.update [schema] [] (.onStart 3)).result = .ok summary ∧
      readerSeen.store.applyChanges (readerSeen.firstPass [schema] []).changed
          (readerSeen.gone [schema] []) =
        .ok (readerSeen.update [schema] [] (.onStart 3)).analyzer.store ∧
      "a.sql" ∈ summary.needsReanalysis := by
  have hused : readerSeen.InUse := (InUse.start .standard (.standard .standard) .empty).update
  obtain ⟨hfails, hpasses⟩ := calls_are_atomic hused
  constructor
  · have hstopped : (readerSeen.perform (.update [schema] [] (.onStart 1))).1.isSome = true := by
      decide +kernel
    obtain ⟨e, he⟩ := Option.isSome_iff_exists.mp hstopped
    exact ⟨e, he, (hfails _ e he).1⟩
  · obtain ⟨hresult, hset, hdepends, hpaths⟩ :
        (readerSeen.update [schema] [] (.onStart 3)).result.toOption.map (·.needsReanalysis) =
          some ["a.sql"] ∧
        (CancelToken.onStart 3).isSet
          (readerSeen.update [schema] [] (.onStart 3)).run.moment = true ∧
        "a.sql" ∈ ((readerSeen.update [schema] [] (.onStart 3)).analyzer.store.graph
          |>.dependentsOf (readerSeen.touchedKeys [schema] [])).map (·.path) ∧
        (readerSeen.update [schema] [] (.onStart 3)).result.toOption.map
          (fun summary => summary.files.map (·.path)) = some ["b.ddl"] := by
      decide +kernel
    obtain ⟨summary, hok, -⟩ := exists_summary hresult
    rw [hok] at hpaths
    obtain ⟨store, happly, ⟨hnot, -⟩ | ⟨-, hanalyzer, hlisted⟩⟩ := hpasses _ _ _ summary hok
    · rw [hset] at hnot
      exact absurd hnot (by simp)
    · rw [hanalyzer] at hdepends ⊢
      obtain ⟨v, hv, hpath⟩ := List.mem_map.mp hdepends
      obtain ⟨⟨k, hv⟩, hlookup⟩ := mem_dependentsOf.mp hv
      refine ⟨summary, hok, happly, hpath ▸ hlisted k v hv hlookup fun o ho heq => ?_⟩
      have hmem : "a.sql" ∈ summary.files.map (·.path) :=
        List.mem_map.mpr ⟨o, ho, heq.trans hpath⟩
      have hfiles : summary.files.map (·.path) = ["b.ddl"] := Option.some.inj hpaths
      rw [hfiles] at hmem
      exact absurd hmem (by decide)

end AppAtlas
