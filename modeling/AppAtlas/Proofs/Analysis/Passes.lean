import AppAtlas.Analysis.Analyzer
import AppAtlas.Proofs.Store.Published

/-!
# The passes of an update

An update classifies its files, resolves those that changed against the staged definitions, enters
them, and then resolves again what depends on them.  At each stage the token may stop it.  This file
says once what can come of each stage, so that later files never look into one: either the stage is
done in full, or it is dropped as a whole and the token is set at the moment at which it ends.

* `Analyzer.Action.Gives`: a step of an analysis is done, or it is stopped.
* `Analyzer.secondPass_spec`, `Analyzer.update_cases`, `Analyzer.rebuild_cases`: the passes.
-/

namespace AppAtlas

open List Std OrderedMap

variable {κ : Type}

/-! ### Stages -/

theorem CancelToken.not_isSet_never {m : Moment} : ¬never.isSet m :=
  Bool.false_ne_true

namespace Run

variable {α β : Type}

def step (token : CancelToken) (work : α → β) (x : List β × Run) (item : α) : List β × Run :=
  (if token.isSet (x.2.ask token).2.moment then x.1 else x.1 ++ [work item], (x.2.ask token).2)

theorem moment_foldl_step (token : CancelToken) (work : α → β) (items : List α) (x : List β × Run) :
    x.2.moment.starts ≤ (items.foldl (step token work) x).2.moment.starts ∧
      x.2.moment.asked ≤ (items.foldl (step token work) x).2.moment.asked := by
  induction items generalizing x with
  | nil => exact ⟨Nat.le_refl _, Nat.le_refl _⟩
  | cons item items ih =>
    obtain ⟨hstarts, hasked⟩ := ih (step token work x item)
    exact ⟨hstarts, Nat.le_trans (Nat.le_succ _) hasked⟩

/-- Steps after which the token is not set were all done, since a token that is set stays set. -/
theorem foldl_step_eq {token : CancelToken} {work : α → β} {items : List α} {x : List β × Run}
    (h : token.isSet (items.foldl (step token work) x).2.moment = false) :
    (items.foldl (step token work) x).1 = x.1 ++ items.map work := by
  induction items generalizing x with
  | nil => simp
  | cons item items ih =>
    have hnot : token.isSet (x.2.ask token).2.moment = false := by
      rw [← Bool.not_eq_true]
      intro hset
      obtain ⟨hstarts, hasked⟩ := moment_foldl_step token work items (step token work x item)
      have hlater := token.stays _ _ hstarts hasked hset
      rw [foldl_cons] at h
      rw [h] at hlater
      exact Bool.false_ne_true hlater
    rw [foldl_cons, ih h, step, hnot]
    simp

/-- **A stage is done in full, or it has no results** and the token is set when it ends. -/
theorem stage_cases (r : Run) (token : CancelToken) (name : String) (work : α → β)
    (items : List α) : (∃ r', token.isSet r'.moment = false ∧
        r.stage token name work items = (some (items.map work), r')) ∨
      ∃ r', token.isSet r'.moment ∧ r.stage token name work items = (none, r') := by
  have hstage : r.stage token name work items =
      (if token.isSet (r.stage token name work items).2.moment then none
        else some (items.foldl (step token work) ([], r.start name items.length)).1,
        (r.stage token name work items).2) := rfl
  rw [hstage]
  cases hset : token.isSet (r.stage token name work items).2.moment with
  | true => exact .inr ⟨_, hset, rfl⟩
  | false =>
    have hbefore : token.isSet (items.foldl (step token work)
        ([], r.start name items.length)).2.moment = false := by
      rw [← Bool.not_eq_true]
      intro hearlier
      have hlater : token.isSet (r.stage token name work items).2.moment = true := token.stays
        (items.foldl (step token work) ([], r.start name items.length)).2.moment _ (Nat.le_refl _)
        (Nat.le_succ _) hearlier
      rw [hset] at hlater
      cases hlater
    rw [foldl_step_eq hbefore]
    exact .inl ⟨_, hset, rfl⟩

end Run

variable [Confidence κ]

namespace Analyzer

/-! ### Resolving -/

def contribution (a : Analyzer κ) (g : Graph κ) (e : Extracted κ) : Contribution κ :=
  a.settings.resolver.resolve e.key e.findings g

def isSound (a : Analyzer κ) (g : Graph κ) (e : Extracted κ) : Bool :=
  decide (a.contribution g e).IsSound

def outcome (a : Analyzer κ) (g : Graph κ) (e : Extracted κ) : FileOutcome :=
  match (a.contribution g e).fault? with
  | none => .of (a.contribution g e) e.findings .applied
  | some fault =>
    { path := e.findings.path
      artifact := some e.findings.artifact
      status := .failed (StoreError.message (.unsound e.findings.path fault)) }

def resolved (a : Analyzer κ) (g : Graph κ) (files : List (Extracted κ)) : Resolved κ where
  changed := (files.filter (a.isSound g)).map (a.contribution g)
  files := files.filter (a.isSound g)
  outcomes := files.map (a.outcome g)

variable {a : Analyzer κ} {g : Graph κ} {token : CancelToken}

@[simp] theorem path_contribution (e : Extracted κ) : (a.contribution g e).path = e.findings.path :=
  rfl

@[simp] theorem nodes_contribution (e : Extracted κ) :
    (a.contribution g e).nodes = e.findings.nodes := rfl

theorem isSound_iff {e : Extracted κ} : a.isSound g e ↔ (a.contribution g e).IsSound :=
  decide_eq_true_iff

theorem path_outcome (e : Extracted κ) : (a.outcome g e).path = e.findings.path := by
  rw [outcome]
  split <;> rfl

theorem status_outcome (e : Extracted κ) : a.isSound g e ∧ (a.outcome g e).status = .applied ∨
      a.isSound g e = false ∧ ∃ reason, (a.outcome g e).status = .failed reason := by
  rw [outcome, ← Bool.not_eq_true, isSound_iff, Contribution.IsSound]
  cases (a.contribution g e).fault? with
  | none => exact .inl ⟨rfl, rfl⟩
  | some fault => exact .inr ⟨by simp, _, rfl⟩

/-- **Resolving file by file gives `resolved`.** -/
theorem foldl_add (a : Analyzer κ) (g : Graph κ) (files : List (Extracted κ)) :
    (files.map fun e => (e, a.settings.resolver.resolve e.key e.findings g)).foldl
      (fun (r : Resolved κ) x => r.add x.1 x.2) {} = a.resolved g files := by
  have hstep : ∀ (files : List (Extracted κ)) (r : Resolved κ),
      (files.map fun e => (e, a.settings.resolver.resolve e.key e.findings g)).foldl
          (fun (r : Resolved κ) x => r.add x.1 x.2) r =
        { changed := r.changed ++ (a.resolved g files).changed
          files := r.files ++ (a.resolved g files).files
          outcomes := r.outcomes ++ (a.resolved g files).outcomes } := by
    intro files
    induction files with
    | nil => simp [resolved]
    | cons e files ih =>
      intro r
      rw [map_cons, foldl_cons, ih]
      cases hfault : (a.contribution g e).fault? with
      | none =>
        have hsound : a.isSound g e := isSound_iff.mpr hfault
        have hadd : r.add e (a.contribution g e) =
            { changed := r.changed ++ [a.contribution g e], files := r.files ++ [e]
              outcomes := r.outcomes ++ [a.outcome g e] } := by
          simp only [Resolved.add, outcome, hfault]
        have hadd : r.add e (a.settings.resolver.resolve e.key e.findings g) = _ := hadd
        simp [hadd, resolved, hsound]
      | some fault =>
        have hsound : a.isSound g e = false := by
          rw [← Bool.not_eq_true, isSound_iff, Contribution.IsSound, hfault]
          simp
        have hadd : r.add e (a.contribution g e) =
            { r with outcomes := r.outcomes ++ [a.outcome g e] } := by
          simp only [Resolved.add, outcome, hfault]
          rfl
        have hadd : r.add e (a.settings.resolver.resolve e.key e.findings g) = _ := hadd
        simp [hadd, resolved, hsound]
  have := hstep files {}
  simpa using this

/-! ### Steps of an analysis -/

theorem isSound_resolved {files : List (Extracted κ)} :
    ∀ c ∈ (a.resolved g files).changed, c.IsSound := by
  intro c hc
  obtain ⟨e, he, rfl⟩ := mem_map.mp hc
  exact isSound_iff.mp (mem_filter.mp he).2

namespace Action

section Steps

variable {α β : Type} {b c : Analyzer κ} {run : Run} {v : α} {w : β} {x : Action κ α}
  {f : α → Action κ β}

omit [Confidence κ]

/-- **A step is done or stopped.**  Done, it gives a value and leaves an analyzer, and the token is
not set; stopped, it leaves the analyzer as it was, and the token is set. -/
def Gives (x : Action κ α) (token : CancelToken) (a : Analyzer κ) (run : Run) (v : α)
    (b : Analyzer κ) : Prop :=
  (∃ run' : Run, token.isSet run'.moment = false ∧ x ⟨a, run⟩ = .ok v ⟨b, run'⟩) ∨
    ∃ run' : Run, token.isSet run'.moment = true ∧ x ⟨a, run⟩ = .error .cancelled ⟨a, run'⟩

/-- A step behind one that leaves the analyzer as it was. -/
theorem Gives.bind (hx : x.Gives token a run v a)
    (hf : ∀ run', (f v).Gives token a run' w b) : (x >>= f).Gives token a run w b := by
  rcases hx with ⟨run₁, -, hx⟩ | ⟨run₁, hset, hx⟩
  · rcases hf run₁ with ⟨run₂, hset, hf⟩ | ⟨run₂, hset, hf⟩
    · exact .inl ⟨run₂, hset, (bind_of_ok hx).trans hf⟩
    · exact .inr ⟨run₂, hset, (bind_of_ok hx).trans hf⟩
  · exact .inr ⟨run₁, hset, bind_of_error hx⟩

/-- Something behind a step that does not ask the token. -/
theorem Gives.andThen (hx : x.Gives token a run v b)
    (hf : ∀ run', f v ⟨b, run'⟩ = .ok w ⟨c, run'⟩) : (x >>= f).Gives token a run w c := by
  rcases hx with ⟨run', hset, hx⟩ | ⟨run', hset, hx⟩
  · exact .inl ⟨run', hset, (bind_of_ok hx).trans (hf run')⟩
  · exact .inr ⟨run', hset, bind_of_error hx⟩

theorem gives_get {f : Session κ → Action κ β} (h : (f ⟨a, run⟩).Gives token a run w b) :
    (get >>= f).Gives token a run w b := by
  rcases h with ⟨run', hset, h⟩ | ⟨run', hset, h⟩
  · exact .inl ⟨run', hset, (bind_of_ok rfl).trans h⟩
  · exact .inr ⟨run', hset, (bind_of_ok rfl).trans h⟩

theorem gives_stage (a : Analyzer κ) (run : Run) (token : CancelToken) (name : String)
    (work : α → β) (items : List α) :
    (stage token name work items).Gives token a run (items.map work) a := by
  rcases run.stage_cases token name work items with ⟨run', hset, hstage⟩ | ⟨run', hset, hstage⟩
  · exact .inl ⟨run', hset, by rw [stage, hstage]⟩
  · exact .inr ⟨run', hset, by rw [stage, hstage]⟩

end Steps

variable {run : Run}

theorem gives_resolve (token : CancelToken) (g : Graph κ) (files : List (Extracted κ)) :
    (resolve token g files).Gives token a run (a.resolved g files) a := by
  have hstage := gives_stage a run token "Resolving"
    (fun file => (file, a.settings.resolver.resolve file.key file.findings g)) files
  rw [← foldl_add]
  exact gives_get (hstage.andThen fun _ => rfl)

theorem gives_onStore {call : Store.Action κ (Graph κ)} {changed : List (Contribution κ)}
    (next : Store κ) (hsound : ∀ c ∈ changed, c.IsSound)
    (hcall : call.Enters changed token { store := a.store, run := run } next) :
    (onStore call).Gives token a run next.graph { a with store := next } := by
  obtain ⟨run', -, hrun⟩ := hcall
  rw [Store.refusal?_of_isSound hsound] at hrun
  cases hset : token.isSet run'.moment with
  | true =>
    rw [hset] at hrun
    exact .inr ⟨run', hset, by rw [onStore, hrun]; rfl⟩
  | false =>
    rw [hset] at hrun
    exact .inl ⟨run', hset, by rw [onStore, hrun]; rfl⟩

end Action

theorem applyChanges_of_isSound {s : Store κ} {changed : List (Contribution κ)}
    {removed : List String} (h : ∀ c ∈ changed, c.IsSound) :
    s.applyChanges changed removed = .ok (s.committed changed removed) := by
  rw [Store.applyChanges_eq_elim, Store.refusal?_of_isSound h]
  rfl

/-! ### The second pass -/

def reentered (a : Analyzer κ) (files : List (Extracted κ)) : Analyzer κ :=
  { a with store := a.store.committed (a.resolved a.store.graph files).changed [] }

theorem Action.gives_reenter (a : Analyzer κ) (token : CancelToken) (files : List (Extracted κ))
    (run : Run) : (reenter token files).Gives token a run
      ((a.resolved a.store.graph files).outcomes.map reresolved) (a.reentered files) :=
  gives_get ((gives_resolve token a.store.graph files).bind fun run' =>
    (gives_onStore (a.reentered files).store isSound_resolved
      (Store.Action.enters_applyChanges _ [] token { store := a.store, run := run' })).andThen
        fun _ => rfl)

/-- What resolving dependents again gives, and the store and the run after it. -/
structure SecondPass (κ : Type) where
  store : Store κ
  outcomes : List FileOutcome := []
  needsReanalysis : List String := []
  run : Run

def secondPass (a : Analyzer κ) (token : CancelToken) (keys : LookupKeys) (batch : List String)
    (run : Run) : SecondPass κ :=
  match Action.secondPass token keys batch { analyzer := a, run := run } with
  | .ok x s => ⟨s.analyzer.store, x.1, x.2, s.run⟩
  | .error _ s => { store := s.analyzer.store, run := s.run }

/-- **What comes of a second pass**: the files at hand are entered again; or it is abandoned, and
then it leaves no trace, lists all dependents, and the token is set. -/
def SecondPass.EndsFor (pass : SecondPass κ) (a : Analyzer κ) (token : CancelToken)
    (paths : List String) (run : Run) : Prop :=
  (a.store.applyChanges (a.resolved a.store.graph (paths.filterMap a.cached?)).changed [] =
        .ok pass.store ∧
      pass.outcomes =
        ((paths.filterMap a.cached?).map (a.outcome a.store.graph)).map reresolved ∧
      (token.isSet run.moment = false → token.isSet pass.run.moment = false)) ∨
    pass.store = a.store ∧ pass.outcomes = [] ∧
      ((∀ (p : String) (e : Extracted κ), a.cache[p]? = some e → e.findings.path = p) →
        ∀ p ∈ paths, p ∈ pass.needsReanalysis) ∧
      token.isSet pass.run.moment = true

/-- **The second pass never fails.** -/
theorem secondPass_spec (a : Analyzer κ) (token : CancelToken) (keys : LookupKeys)
    (batch : List String) (run : Run) :
    Action.secondPass token keys batch { analyzer := a, run := run } =
        .ok ((a.secondPass token keys batch run).outcomes,
            (a.secondPass token keys batch run).needsReanalysis)
          { analyzer := { a with store := (a.secondPass token keys batch run).store }
            run := (a.secondPass token keys batch run).run } ∧
      (a.secondPass token keys batch run).EndsFor a token (dependents a.store.graph keys batch)
        run := by
  suffices h : ∃ pass : SecondPass κ,
      Action.secondPass token keys batch { analyzer := a, run := run } =
        .ok (pass.outcomes, pass.needsReanalysis)
          { analyzer := { a with store := pass.store }, run := pass.run } ∧
      pass.EndsFor a token (dependents a.store.graph keys batch) run by
    obtain ⟨pass, hpass, hends⟩ := h
    have hsecond : a.secondPass token keys batch run = pass := by rw [secondPass, hpass]
    rw [hsecond]
    exact ⟨hpass, hends⟩
  rw [Action.secondPass]
  generalize dependents a.store.graph keys batch = paths
  dsimp only
  by_cases hempty : paths.isEmpty
  · rw [if_pos hempty, isEmpty_iff.mp hempty]
    exact ⟨{ store := a.store, run := run }, rfl, .inl ⟨rfl, rfl, id⟩⟩
  · rw [if_neg hempty]
    rcases Action.gives_reenter a token (paths.filterMap a.cached?) run with
      ⟨run', hset, henter⟩ | ⟨run', hset, henter⟩
    · rw [henter]
      exact ⟨⟨_, _, _, run'⟩, rfl,
        .inl ⟨applyChanges_of_isSound isSound_resolved, rfl, fun _ => hset⟩⟩
    · rw [henter]
      refine ⟨⟨a.store, [], _, run'⟩, rfl, .inr ⟨rfl, rfl, fun hcache p hp => ?_, hset⟩⟩
      -- an abandoned pass lists the dependents without findings and those with
      rw [mem_mergeSort, mem_append]
      cases hc : a.cached? p with
      | none => exact .inl (mem_filter.mpr ⟨hp, by rw [hc]; rfl⟩)
      | some e =>
        refine .inr (mem_map.mpr ⟨e, mem_filterMap.mpr ⟨p, hp, hc⟩, ?_⟩)
        exact hcache p e (Option.filter_eq_some_iff.mp hc).1

theorem outcome_of_secondPass {keys : LookupKeys} {batch : List String} {run : Run}
    {o : FileOutcome} (ho : o ∈ (a.secondPass token keys batch run).outcomes) :
    ∃ e ∈ (dependents a.store.graph keys batch).filterMap a.cached?,
      o = reresolved (a.outcome a.store.graph e) := by
  rcases (secondPass_spec a token keys batch run).2 with ⟨-, houtcomes, -⟩ | ⟨-, hnone, -⟩
  · rw [houtcomes, map_map] at ho
    obtain ⟨e, he, rfl⟩ := mem_map.mp ho
    exact ⟨e, he, rfl⟩
  · rw [hnone] at ho
    cases ho

/-! ### Updates and rebuilds -/

def changedFiles (a : Analyzer κ) (base : Option (Graph κ)) (files : List SourceFile) :
    List (Extracted κ) :=
  (((a.classify base files).1.map a.extract).filter fun e => !e.2).map (·.1)

/-- The files of a batch whose version the graph holds and whose findings were missing. -/
def refreshedFiles (a : Analyzer κ) (base : Option (Graph κ)) (files : List SourceFile) :
    List (Extracted κ) :=
  (((a.classify base files).1.map a.extract).filter (·.2)).map (·.1)

def gone (a : Analyzer κ) (files : List SourceFile) (removed : List String) : List String :=
  removedPaths a.store.graph files removed

/-- The graph that the files of an update are resolved against. -/
def staged (a : Analyzer κ) (files : List SourceFile) (removed : List String) : Graph κ :=
  a.store.stage ((a.changedFiles (some a.store.graph) files).map definitions) (a.gone files removed)

def firstPass (a : Analyzer κ) (files : List SourceFile) (removed : List String) : Resolved κ :=
  a.resolved (a.staged files removed) (a.changedFiles (some a.store.graph) files)

def batchOutcomes (a : Analyzer κ) (files : List SourceFile) (removed : List String) :
    List FileOutcome :=
  (a.classify (some a.store.graph) files).2
    ++ (a.refreshedFiles (some a.store.graph) files).map unchangedOutcome
    ++ (a.firstPass files removed).outcomes
    ++ (a.gone files removed).map fun p => { path := p, artifact := none, status := .removed }

def between (a : Analyzer κ) (files : List SourceFile) (removed : List String) (store : Store κ) :
    Analyzer κ :=
  { a with
    store := store
    cache := remember (forget a.cache (a.gone files removed))
      ((a.firstPass files removed).files ++ a.refreshedFiles (some a.store.graph) files) }

def touchedKeys (a : Analyzer κ) (files : List SourceFile) (removed : List String) : LookupKeys :=
  changedKeys a.store.graph (a.firstPass files removed).changed (a.gone files removed)

def lastPass (a : Analyzer κ) (files : List SourceFile) (removed : List String)
    (token : CancelToken) (store : Store κ) (run : Run) : SecondPass κ :=
  (a.between files removed store).secondPass token (a.touchedKeys files removed)
    ((a.batchOutcomes files removed).map (·.path)) run

/-- **The first pass is entered, or it changes nothing** and the token is set. -/
theorem Action.gives_firstPass (a : Analyzer κ) (files : List SourceFile) (removed : List String)
    (token : CancelToken) : (firstPass files removed token).Gives token a {}
      (a.touchedKeys files removed, a.batchOutcomes files removed)
      (a.between files removed (a.store.committed (a.firstPass files removed).changed
        (a.gone files removed))) :=
  gives_get ((gives_stage a {} token "Extracting" a.extract _).bind fun _ =>
    (gives_resolve token (a.staged files removed) _).bind fun run' =>
      (gives_onStore (a.store.committed _ (a.gone files removed)) isSound_resolved
        (Store.Action.enters_applyChanges _ _ token { store := a.store, run := run' })).andThen
          fun _ => rfl)

def finish (a : Analyzer κ) (outcomes : List FileOutcome) (needsReanalysis : List String)
    (run : Run) : Analysis κ :=
  (Action.finish outcomes needsReanalysis).analysis a run

omit [Confidence κ] in
theorem analysis_eq {act act' : Action κ Summary} {a' : Analyzer κ} {run : Run}
    (h : act { analyzer := a } = act' { analyzer := a', run := run }) :
    act.analysis a = act'.analysis a' run := by
  rw [Action.analysis, h]
  rfl

omit [Confidence κ] in
theorem analysis_of_cancelled {act : Action κ Summary} {run : Run} (hset : token.isSet run.moment)
    (h : act { analyzer := a } = .error .cancelled { analyzer := a, run := run }) :
    ((act.analysis a).analyzer = a ∧ (act.analysis a).result = .error .cancelled) ∧
      token.isSet (act.analysis a).run.moment := by
  rw [Action.analysis, h]
  exact ⟨⟨rfl, rfl⟩, hset⟩

/-- **An update enters its first pass and goes on to the second, or it changes nothing** and the
token is set. -/
theorem update_cases (a : Analyzer κ) (files : List SourceFile) (removed : List String)
    (token : CancelToken) : (∃ store run,
        a.store.applyChanges (a.firstPass files removed).changed (a.gone files removed) =
          .ok store ∧ token.isSet run.moment = false ∧ a.update files removed token =
          { a.between files removed store with
              store := (a.lastPass files removed token store run).store }.finish
            (a.batchOutcomes files removed ++ (a.lastPass files removed token store run).outcomes)
            (a.lastPass files removed token store run).needsReanalysis
            (a.lastPass files removed token store run).run) ∨
      ((a.update files removed token).analyzer = a ∧
        (a.update files removed token).result = .error .cancelled) ∧
        token.isSet (a.update files removed token).run.moment := by
  rcases Action.gives_firstPass a files removed token with
    ⟨run, hset, hfirst⟩ | ⟨run, hset, hfirst⟩
  · have happly : a.store.applyChanges (a.firstPass files removed).changed
        (a.gone files removed) = _ := applyChanges_of_isSound isSound_resolved
    generalize a.store.committed (a.firstPass files removed).changed (a.gone files removed) = store
      at hfirst happly
    refine .inl ⟨store, run, happly, hset, ?_⟩
    have hsecond := (secondPass_spec (a.between files removed store) token
      (a.touchedKeys files removed) ((a.batchOutcomes files removed).map (·.path)) run).1
    rw [← lastPass] at hsecond
    generalize a.lastPass files removed token store run = last at hsecond ⊢
    exact analysis_eq ((bind_of_ok hfirst).trans (bind_of_ok hsecond))
  · exact .inr (analysis_of_cancelled hset (bind_of_error hfirst))

omit [Confidence κ] in
@[simp] theorem moment_finish (a : Analyzer κ) (outcomes : List FileOutcome)
    (needsReanalysis : List String) (run : Run) :
    (a.finish outcomes needsReanalysis run).run.moment = run.moment := by
  show (if needsReanalysis.isEmpty then run else _).moment = run.moment
  split <;> rfl

/-- What is reported of an update that returns: the outcomes of both passes, and what the second one
left to the caller. -/
theorem summary_of_update {files : List SourceFile} {removed : List String} {summary : Summary}
    (hok : (a.update files removed token).result = .ok summary) : ∃ store run,
      a.store.applyChanges (a.firstPass files removed).changed (a.gone files removed) = .ok store ∧
      token.isSet run.moment = false ∧ (a.update files removed token).analyzer =
        { a.between files removed store with
          store := (a.lastPass files removed token store run).store } ∧
      (a.update files removed token).run.moment =
        (a.lastPass files removed token store run).run.moment ∧
      summary.needsReanalysis = (a.lastPass files removed token store run).needsReanalysis ∧
      ∀ o, o ∈ summary.files ↔
        o ∈ a.batchOutcomes files removed ++
          (a.lastPass files removed token store run).outcomes := by
  rcases update_cases a files removed token with
    ⟨store, run, happly, hset, hupdate⟩ | ⟨⟨-, he⟩, -⟩
  · rw [hupdate] at hok ⊢
    cases hok
    exact ⟨store, run, happly, hset, rfl, moment_finish _ _ _ _, rfl,
      fun o => mem_mergeSort⟩
  · rw [hok] at he
    cases he

def rebuiltFiles (a : Analyzer κ) (files : List SourceFile) : List (Extracted κ) :=
  ((a.classify none files).1.map a.extract).map (·.1)

def rebuiltPass (a : Analyzer κ) (files : List SourceFile) : Resolved κ :=
  a.resolved (a.store.stageAlone ((a.rebuiltFiles files).map definitions)) (a.rebuiltFiles files)

theorem rebuild_of_isSound {s : Store κ} {changed : List (Contribution κ)}
    (h : ∀ c ∈ changed, c.IsSound) : s.rebuild changed = .ok (s.rebuilt changed) := by
  rw [Store.rebuild_eq_elim, Store.refusal?_of_isSound h]
  rfl

theorem Action.gives_rebuild (a : Analyzer κ) (files : List SourceFile) (token : CancelToken) :
    (rebuild files token).Gives token a {}
      (.of (a.store.rebuilt (a.rebuiltPass files).changed).graph.version
        ((a.classify none files).2 ++ (a.rebuiltPass files).outcomes) []) { a with
        store := a.store.rebuilt (a.rebuiltPass files).changed
        cache := remember ∅ (a.rebuiltPass files).files } :=
  gives_get ((gives_stage a {} token "Extracting" a.extract _).bind fun _ =>
    (gives_resolve token _ (a.rebuiltFiles files)).bind fun run' =>
      (gives_onStore (a.store.rebuilt (a.rebuiltPass files).changed) isSound_resolved
        (Store.Action.enters_rebuild _ token { store := a.store, run := run' })).andThen fun _ => rfl)

/-- **A rebuild enters its files, or it changes nothing** and the token is set. -/
theorem rebuild_cases (a : Analyzer κ) (files : List SourceFile) (token : CancelToken) :
    (∃ store run, a.store.rebuild (a.rebuiltPass files).changed = .ok store ∧
        a.rebuild files token =
          { a with store := store, cache := remember ∅ (a.rebuiltPass files).files }.finish
            ((a.classify none files).2 ++ (a.rebuiltPass files).outcomes) [] run) ∨
      ((a.rebuild files token).analyzer = a ∧
        (a.rebuild files token).result = .error .cancelled) ∧
        token.isSet (a.rebuild files token).run.moment := by
  rcases Action.gives_rebuild a files token with ⟨run, -, hrun⟩ | ⟨run, hset, hrun⟩
  · exact .inl ⟨_, run, rebuild_of_isSound isSound_resolved, analysis_eq hrun⟩
  · exact .inr (analysis_of_cancelled hset hrun)

end Analyzer

end AppAtlas
