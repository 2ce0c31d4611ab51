import AppAtlas.Analysis.Outcome
import AppAtlas.Analysis.Progress
import AppAtlas.Extract.Artifact
import AppAtlas.Resolve.Resolver
import AppAtlas.Settings.Basic
import AppAtlas.Store.Basic

/-! # The analyzer

The analyzer keeps a store up to date with the files of a project. A batch of files is classified,
extracted and resolved, and its contributions are entered as one version. Definitions that the batch
added, replaced or dropped may change how other files are resolved: those that looked up one of the
keys concerned are resolved again from their findings, which are kept, and entered as a second
version.

The files of a batch are resolved against the definitions of the whole batch, so that it does not
matter in which order they are given.

As with the store, what an analysis has changed when it fails stays changed; it fails before it
changes anything.
-/

namespace AppAtlas

/-- A file to analyse; its kind is found out unless it is given. -/
structure SourceFile where
  path : String
  content : String
  artifact : Option ArtifactKind := none
deriving DecidableEq, Repr

structure Extractor (κ : Type) where
  classify : (path content : String) → Option ArtifactKind
  findings : ArtifactKind → (path content : String) → FindingSet κ

def Extractor.standard {κ : Type} [Confidence κ] (options : Extract.Options κ) : Extractor κ where
  classify := Extract.classify
  findings := Extract.findings options

structure Extracted (κ : Type) where
  key : FileKey
  findings : FindingSet κ

structure Prepared where
  path : String
  content : String
  key : FileKey
  artifact : ArtifactKind
  /-- Whether the graph holds this version already and only its findings are missing. -/
  unchanged : Bool

structure Analyzer (κ : Type) where
  settings : Settings κ
  extractor : Extractor κ
  store : Store κ := .empty
  /-- The findings of the versions in the graph, by path. -/
  cache : Std.ExtTreeMap String (Extracted κ) compare := ∅

/-- Why a batch was not entered. -/
inductive AnalysisError (κ : Type) where
  | cancelled
  | store (error : StoreError κ)
deriving DecidableEq

/-- The error of an analysis whose batch the store did not enter. -/
def AnalysisError.ofStore {κ : Type} : StoreError κ → AnalysisError κ
  | .cancelled => .cancelled
  | e => .store e

/-- What an analysis gives: a summary or an error, the state after it, and what was reported. -/
structure Analysis (κ : Type) where
  result : Except (AnalysisError κ) Summary
  analyzer : Analyzer κ
  run : Run

namespace Analyzer

/-- An analyzer at work, and its run so far. -/
structure Session (κ : Type) where
  analyzer : Analyzer κ
  run : Run := {}

/-- A step of an analysis: it gives a value or an error, and either way the session it leaves. -/
abbrev Action (κ : Type) := EStateM (AnalysisError κ) (Session κ)

variable {κ : Type} [Confidence κ]

def start (settings : Settings κ) : Except (SettingsError κ) (Analyzer κ) :=
  settings.checked.map fun s =>
    { settings := s, extractor := .standard s.extraction.confidence }

/-! ### Classifying -/

/-- Files by normalised path; of several for one path the last counts. -/
def byPath (files : List SourceFile) : List (String × SourceFile) :=
  (Std.ExtTreeMap.ofList (files.map fun f => (FilePath.normalize f.path, f)) compare).toList

/-- A file made ready for extraction, or its outcome if there is nothing to extract. `base` is the
graph in which the file may be already. -/
def prepare (a : Analyzer κ) (base : Option (Graph κ)) (path : String) (file : SourceFile) :
    Prepared ⊕ FileOutcome :=
  if !a.settings.admits path then
    .inr { path := path, artifact := file.artifact, status := .skipped "excluded by pattern" }
  else
    match file.artifact <|> a.extractor.classify path file.content with
    | none =>
      .inr { path := path, artifact := none, status := .skipped "no extractor claims the file" }
    | some artifact =>
      let key := FileKey.of path file.content
      let isApplied := base.any fun g => g.fileKey? path == some key
      if isApplied && (a.cache.get? path).any (·.key == key) then
        .inr { path := path, artifact := some artifact, status := .unchanged }
      else
        .inl
          { path := path, content := file.content, key := key, artifact := artifact,
            unchanged := isApplied }

/-- The files of a batch that are to be extracted, and the outcomes of the others. -/
def classify (a : Analyzer κ) (base : Option (Graph κ)) (files : List SourceFile) :
    List Prepared × List FileOutcome :=
  let all := (byPath files).map fun (path, file) => a.prepare base path file
  (all.filterMap fun x => x.getLeft?, all.filterMap fun x => x.getRight?)

/-- The findings of a prepared file, and whether the graph holds its version. -/
def extract (a : Analyzer κ) (p : Prepared) : Extracted κ × Bool :=
  (⟨p.key, a.extractor.findings p.artifact p.path p.content⟩, p.unchanged)

/-! ### Resolving -/

/-- What resolving some files gave: sound contributions, the files they are of, and outcomes. -/
structure Resolved (κ : Type) where
  changed : List (Contribution κ) := []
  files : List (Extracted κ) := []
  outcomes : List FileOutcome := []

def Resolved.add (r : Resolved κ) (file : Extracted κ) (c : Contribution κ) : Resolved κ :=
  match c.fault? with
  | none =>
    { changed := r.changed ++ [c]
      files := r.files ++ [file]
      outcomes := r.outcomes ++ [.of c file.findings .applied] }
  | some fault =>
    let reason := StoreError.message (.unsound c.path fault)
    { r with
      outcomes := r.outcomes
        ++ [{ path := c.path, artifact := some file.findings.artifact, status := .failed reason }] }

/-- A stage of the run. It fails if the run is to stop. -/
def Action.stage {α β : Type} (token : CancelToken) (name : String) (work : α → β)
    (items : List α) : Action κ (List β) := fun s =>
  match s.run.stage token name work items with
  | (some done, run) => .ok done { s with run := run }
  | (none, run) => .error .cancelled { s with run := run }

def Action.resolve (token : CancelToken) (g : Graph κ) (files : List (Extracted κ)) :
    Action κ (Resolved κ) := do
  let resolver := (← get).analyzer.settings.resolver
  let all ← stage token "Resolving"
    (fun file => (file, resolver.resolve file.key file.findings g)) files
  return all.foldl (fun r (file, c) => r.add file c) {}

def definitions (file : Extracted κ) : Contribution κ := file.findings.definitionsOf file.key

def Action.onStore {α : Type} (call : Store.Action κ α) : Action κ α := fun s =>
  let after := fun (t : Store.Session κ) =>
    { s with analyzer := { s.analyzer with store := t.store }, run := t.run }
  match call { store := s.analyzer.store, run := s.run } with
  | .ok x t => .ok x (after t)
  | .error e t => .error (.ofStore e) (after t)

/-- The keys of all definitions that a batch adds, replaces or drops. -/
def changedKeys (base : Graph κ) (changed : List (Contribution κ)) (removed : List String) :
    LookupKeys :=
  let added := changed.flatMap fun c => c.nodes.flatMap (·.lookupKeys)
  let dropped := (changed.map (·.path) ++ removed).flatMap fun path =>
    ((base.provenanceAt? path).map (·.nodeIds)).getD [] |>.filterMap base.node?
      |>.flatMap (·.lookupKeys)
  Std.ExtTreeSet.ofList (added ++ dropped) compare

/-- The paths outside a batch that depend on some keys, in order. -/
def dependents (g : Graph κ) (keys : LookupKeys) (batch : List String) : List String :=
  sortedSet (((g.dependentsOf keys).map (·.path)).filter fun p => !batch.contains p)

/-- The findings at hand of the version of a file that a graph holds. -/
def cached? (a : Analyzer κ) (path : String) : Option (Extracted κ) :=
  (a.cache.get? path).filter fun c => a.store.graph.fileKey? path == some c.key

def reresolved (o : FileOutcome) : FileOutcome :=
  if o.status = .applied then { o with status := .reresolved } else o

/-- Files in the graph are resolved again and entered. -/
def Action.reenter (token : CancelToken) (files : List (Extracted κ)) :
    Action κ (List FileOutcome) := do
  let resolved ← resolve token (← get).analyzer.store.graph files
  let _ ← onStore (.applyChanges resolved.changed [] token)
  return resolved.outcomes.map reresolved

/-- Files outside the batch are entered again that depend on some keys: their outcomes, and the
paths that are left to the caller, which are those whose findings are not at hand, and all when
entering them fails. -/
def Action.secondPass (token : CancelToken) (keys : LookupKeys) (batch : List String) :
    Action κ (List FileOutcome × List String) := fun s =>
  let paths := dependents s.analyzer.store.graph keys batch
  if paths.isEmpty then .ok ([], []) s
  else
    let files := paths.filterMap s.analyzer.cached?
    let missing := paths.filter fun p => (s.analyzer.cached? p).isNone
    match reenter token files s with
    | .ok outcomes after => .ok (outcomes, missing) after
    | .error _ after =>
      .ok ([], (missing ++ files.map (·.findings.path)).mergeSort fun p q => (compare p q).isLE)
        after

/-! ### Batches -/

def remember (cache : Std.ExtTreeMap String (Extracted κ) compare) (files : List (Extracted κ)) :
    Std.ExtTreeMap String (Extracted κ) compare :=
  files.foldl (fun cache f => cache.insert f.findings.path f) cache

def forget (cache : Std.ExtTreeMap String (Extracted κ) compare) (paths : List String) :
    Std.ExtTreeMap String (Extracted κ) compare :=
  paths.foldl (fun cache p => cache.erase p) cache

def Action.writeCache
    (change : Std.ExtTreeMap String (Extracted κ) compare →
      Std.ExtTreeMap String (Extracted κ) compare) : Action κ Unit :=
  modify fun s => { s with analyzer := { s.analyzer with cache := change s.analyzer.cache } }

/-- The end of an analysis: a message says if files are left to the caller. -/
def Action.finish (outcomes : List FileOutcome) (needsReanalysis : List String) :
    Action κ Summary := fun s =>
  let run :=
    if needsReanalysis.isEmpty then s.run
    else
      s.run.report
        (.message (toString needsReanalysis.length ++ " dependent file(s) need re-analysis"))
  .ok (.of s.analyzer.store.graph.version outcomes needsReanalysis) { s with run := run }

/-- The outcome of a file whose version the graph holds. -/
def unchangedOutcome (file : Extracted κ) : FileOutcome :=
  { path := file.findings.path, artifact := some file.findings.artifact, status := .unchanged }

/-- The removed paths of a batch that matter: those in the graph and not submitted, in order. -/
def removedPaths (g : Graph κ) (files : List SourceFile) (removed : List String) : List String :=
  let submitted := files.map fun f => FilePath.normalize f.path
  sortedSet ((removed.map FilePath.normalize).filter fun p =>
    !submitted.contains p && (g.fileKey? p).isSome)

/-- Changed files are analysed and entered, and removed ones dropped: the keys of what that changed,
and the outcomes. -/
def Action.firstPass (files : List SourceFile) (removed : List String) (token : CancelToken) :
    Action κ (LookupKeys × List FileOutcome) := do
  let a := (← get).analyzer
  let base := a.store.graph
  let gone := removedPaths base files removed
  let classified := a.classify (some base) files
  let extracted ← stage token "Extracting" a.extract classified.1
  let changed := (extracted.filter fun e => !e.2).map (·.1)
  let refreshed := (extracted.filter (·.2)).map (·.1)
  let staged := a.store.stage (changed.map definitions) gone
  let resolved ← resolve token staged changed
  let _ ← onStore (.applyChanges resolved.changed gone token)
  writeCache fun cache => remember (forget cache gone) (resolved.files ++ refreshed)
  return (changedKeys base resolved.changed gone,
    classified.2 ++ refreshed.map unchangedOutcome ++ resolved.outcomes
      ++ gone.map fun p => { path := p, artifact := none, status := .removed })

/-- Changed files are analysed and removed ones dropped. -/
def Action.update (files : List SourceFile) (removed : List String) (token : CancelToken) :
    Action κ Summary := do
  let first ← firstPass files removed token
  let again ← secondPass token first.1 (first.2.map (·.path))
  finish (first.2 ++ again.1) again.2

/-- The whole graph is replaced with the analysis of some files. -/
def Action.rebuild (files : List SourceFile) (token : CancelToken) : Action κ Summary := do
  let a := (← get).analyzer
  let classified := a.classify none files
  let extracted ← stage token "Extracting" a.extract classified.1
  let files := extracted.map (·.1)
  let staged := a.store.stageAlone (files.map definitions)
  let resolved ← resolve token staged files
  let _ ← onStore (.rebuild resolved.changed token)
  writeCache fun _ => remember ∅ resolved.files
  finish (classified.2 ++ resolved.outcomes) []

/-- What comes of an analysis that goes on from a run. -/
def Action.analysis (act : Action κ Summary) (a : Analyzer κ) (run : Run := {}) : Analysis κ :=
  match act { analyzer := a, run := run } with
  | .ok summary s => ⟨.ok summary, s.analyzer, s.run⟩
  | .error e s => ⟨.error e, s.analyzer, s.run⟩

def update (a : Analyzer κ) (files : List SourceFile) (removed : List String)
    (token : CancelToken := .never) : Analysis κ :=
  (Action.update files removed token).analysis a

def rebuild (a : Analyzer κ) (files : List SourceFile) (token : CancelToken := .never) : Analysis κ :=
  (Action.rebuild files token).analysis a

/-! ### Loading -/

/-- A saved document takes the place of the graph, if it could be read. Findings are forgotten. -/
def Action.load (saved : Except (SaveError κ) (Document κ)) :
    EStateM (SaveError κ) (Analyzer κ) (Graph κ) := fun a =>
  match saved with
  | .error e => .error e a
  | .ok d =>
    match Store.Action.restore d a.store with
    | .error e store => .error e { a with store := store }
    | .ok graph store => .ok graph { a with store := store, cache := ∅ }

def load (a : Analyzer κ) (d : Document κ) : Except (SaveError κ) (Analyzer κ) :=
  match Action.load (.ok d) a with
  | .ok _ loaded => .ok loaded
  | .error e _ => .error e

end Analyzer

end AppAtlas
