import AppAtlas.Proofs.Analysis.Keys
import AppAtlas.Proofs.Analysis.Kept

/-!
# Fresh contributions

A contribution is fresh if it is what its findings are resolved to against the graph as it is now.
An update resolves its own files against the staged definitions, resolves dependents again against
the graph after the first pass, and leaves the rest.  All three come out fresh, each for a reason of
its own: the staged definitions and those of both passes are the same, and what is left alone has
looked up no key of anything that changed.

* `Analyzer.Kept.contribution_eq_or_failed`, `Analyzer.Kept.contribution_eq_or_held`: why files of
  the batch and files left alone are fresh.
* `Analyzer.Kept.update`: what an update leaves fresh, and what can keep a file from it.
-/

namespace AppAtlas

open List Std OrderedMap

variable {κ : Type} [Confidence κ]

/-! ### Definitions along the passes -/

theorem Graph.alike_of_succeeds {g g' : Graph κ} {t t' : Contributions κ} (hg : g.Shows t)
    (hg' : g'.Shows t') (ht : t.Identified) (ht' : t'.Identified) (h : t.SameDefinitions t')
    (hsucceeds : g'.Succeeds g) (tieBreak : TieBreak) : g.Alike tieBreak g' := by
  have hsame : ∀ id, g.SameAt g' id := fun id =>
    sameAt_of_defining_eq hg hg' ht ht' (h.defining_eq id)
  refine ⟨hsame, fun _ id hconcrete => ?_⟩
  exact hsucceeds.introduced?_eq hconcrete ((hsame id).concreteAt_eq ▸ hconcrete)

namespace Analyzer

variable {a : Analyzer κ} {known : String → SourceFile → Prop} {owner : FileKey → String}
  {t : Contributions κ} {g : Graph κ} {files : List SourceFile} {removed : List String}

omit [Confidence κ] in
theorem nodes_after_map {make : Extracted κ → Contribution κ}
    (hpath : ∀ e, (make e).path = e.findings.path)
    (hnodes : ∀ e, (make e).nodes = e.findings.nodes) (t : Contributions κ)
    (files : List (Extracted κ)) (gone : List String) (p : String) :
    (t.after (files.map make) gone)[p]?.map (·.nodes) =
      ((files.reverse.find? (·.findings.path == p)).map (·.findings.nodes)).or
        ((if p ∈ gone then none else t[p]?).map (·.nodes)) := by
  have hfind : (files.map make).reverse.find? (·.path == p) =
      (files.reverse.find? (·.findings.path == p)).map make := by
    rw [← map_reverse, find?_map]
    simp only [Function.comp_def, hpath]
  rw [Contributions.getElem?_after, hfind]
  cases files.reverse.find? (·.findings.path == p) with
  | none => rfl
  | some e => exact congrArg some (hnodes e)

theorem Paired.sameDefinitions_refresh {cache : ExtTreeMap String (Extracted κ) compare}
    (h : a.Paired known t cache) {files : List (Extracted κ)}
    (hfiles : ∀ e ∈ files, cache[e.findings.path]? = some e) :
    t.SameDefinitions (t.after (files.map (a.contribution g)) []) := by
  intro p
  rw [nodes_after_map path_contribution nodes_contribution, if_neg not_mem_nil]
  cases hfind : files.reverse.find? (·.findings.path == p) with
  | none => rfl
  | some e =>
    obtain ⟨hmem, rfl⟩ := of_find?_path hfind
    obtain ⟨g', hc, -⟩ := h.of_cached (hfiles e hmem)
    rw [hc]
    rfl

def stagedPart (e : Extracted κ) : Contribution κ := (definitions e).definitionsOnly

/-- **A graph of staged definitions** shows the definitions of the files in the place of what their
paths contributed. -/
theorem stage_spec {l : Ledger κ} {base : Graph κ} (hrecords : l.Records t)
    (hkeyed : t.Keyed owner) (hshows : base.Shows t) (hledger : l.Identified) (hbase : base.Sound)
    {es : List (Extracted κ)} (howner : ∀ e ∈ es, owner e.key = e.findings.path)
    (hnodes : ∀ e ∈ es, ∀ n ∈ e.findings.nodes, n.id = n.expectedId) (gone : List String) :
    ((l.commit base (es.map stagedPart) gone).2.getD base).Shows
        (t.after (es.map stagedPart) gone) ∧
      ((l.commit base (es.map stagedPart) gone).2.getD base).Sound ∧
      (t.after (es.map stagedPart) gone).Identified := by
  have hparts : ∀ c ∈ es.map stagedPart, owner c.key = c.path ∧ c.Identified := by
    intro c hc
    obtain ⟨e, he, rfl⟩ := mem_map.mp hc
    exact ⟨howner e he, hnodes e he, fun n hn => absurd hn not_mem_nil⟩
  refine ⟨(hrecords.commit hkeyed (fun c hc => (hparts c hc).1) gone hshows).2.2,
    (hledger.commit hbase (fun c hc => (hparts c hc).2) gone).2, fun p c hc => ?_⟩
  rcases Contributions.mem_of_after hc with hc | hc
  · exact (hparts c hc).2
  · exact hledger c.key c (hrecords.held p c hc)

namespace Kept

variable {store : Store κ} {p : String} {e : Extracted κ} {last : Graph κ}

/-- **The staged definitions are those of the first pass**, if no file fails. -/
theorem staged_alike (h : a.Kept known owner t) (hknown : ∀ x ∈ byPath files, known x.1 x.2)
    (hall : ∀ e ∈ a.changedFiles (some a.store.graph) files, a.isSound (a.staged files removed) e)
    (happly : a.store.applyChanges (a.firstPass files removed).changed (a.gone files removed) =
      .ok store) (tieBreak : TieBreak) :
    (a.staged files removed).Alike tieBreak store.graph ∧ (a.staged files removed).Sound := by
  have hstaged : (a.store.ledger.commit a.store.graph
      ((a.changedFiles (some a.store.graph) files).map stagedPart)
      (a.gone files removed)).2.getD a.store.graph = a.staged files removed := by
    rw [staged, Store.stage, map_map]
    rfl
  have howner : ∀ e ∈ a.changedFiles (some a.store.graph) files, owner e.key = e.findings.path :=
    fun e he => h.names.owner_key (h.origin_of_changed hknown he)
  obtain ⟨hshows, hsound, hidentified⟩ := stage_spec h.holds.records h.holds.keyed h.holds.shows
    h.identified.ledger h.identified.graph howner
    (fun e he => (isSound_iff.mp (hall e he)).identified.nodes) (a.gone files removed)
  have hsucceeds := Ledger.commit_succeeds a.store.ledger
    ((a.changedFiles (some a.store.graph) files).map stagedPart) (a.gone files removed)
    h.holds.dated
  rw [hstaged] at hshows hsound hsucceeds
  obtain ⟨hbetween, hnext⟩ := h.between hknown happly
  have hdefinitions : (t.after ((a.changedFiles (some a.store.graph) files).map stagedPart)
      (a.gone files removed)).SameDefinitions
        (t.after (a.firstPass files removed).changed (a.gone files removed)) := by
    have hchanged : (a.firstPass files removed).changed =
        (a.changedFiles (some a.store.graph) files).map (a.contribution (a.staged files removed)) :=
      congrArg _ (filter_eq_self.mpr hall)
    intro p
    rw [hchanged, nodes_after_map (fun _ => rfl) fun _ => rfl,
      nodes_after_map path_contribution nodes_contribution]
  have hsame : ∀ id, (a.staged files removed).SameAt store.graph id := fun id =>
    Graph.sameAt_of_defining_eq hshows hbetween.holds.shows hidentified
      hbetween.identified_contributions (hdefinitions.defining_eq id)
  refine ⟨⟨hsame, fun _ id hconcrete => ?_⟩, hsound⟩
  obtain ⟨-, hstore⟩ := Store.applyChanges_eq happly
  have hentered : (a.store.ledger.commit a.store.graph (a.firstPass files removed).changed
      (a.gone files removed)).2.getD a.store.graph = store.graph := by
    rw [hstore]
    rfl
  have hconcrete' : store.graph.concreteAt id := by
    rw [← (hsame id).concreteAt_eq]
    exact hconcrete
  exact Ledger.introduced?_of_commits hstaged hentered hsucceeds hnext hconcrete hconcrete'

theorem status_reresolved {o : FileOutcome} {reason : String} (h : o.status = .failed reason) :
    (reresolved o).status = .failed reason := by
  rw [reresolved, if_neg (by rw [h]; simp)]
  exact h

theorem getElem?_refreshed_of_not_mem (h : a.Kept known owner t) {paths : List String}
    (hp : p ∉ paths) :
    (t.after (a.resolved g (paths.filterMap a.cached?)).changed [])[p]? = t[p]? := by
  have hother : ∀ e ∈ (a.resolved g (paths.filterMap a.cached?)).files, e.findings.path ≠ p := by
    intro e he hpath
    obtain ⟨q, hq, hcached⟩ := mem_filterMap.mp (mem_filter.mp he).1
    rw [h.cached?_eq] at hcached
    rw [← hpath, h.path_of_cache hcached] at hp
    exact hp hq
  rw [getElem?_after_resolved, find?_path_eq_none hother, if_neg not_mem_nil]
  rfl

theorem getElem?_refreshed_of_mem (h : a.Kept known owner t) {paths : List String} (hp : p ∈ paths)
    (he : a.cache[p]? = some e) (hsound : a.isSound g e) :
    (t.after (a.resolved g (paths.filterMap a.cached?)).changed [])[p]? =
      some (a.contribution g e) := by
  have hmem : e ∈ (a.resolved g (paths.filterMap a.cached?)).files :=
    mem_filter.mpr ⟨mem_filterMap.mpr ⟨p, hp, by rw [h.cached?_eq, he]⟩, hsound⟩
  have hunique : ∀ e' ∈ (a.resolved g (paths.filterMap a.cached?)).files,
      e'.findings.path = e.findings.path → e' = e := by
    intro e' he' hpath
    have hcached := h.cache_of_mem_cached (mem_filter.mp he').1
    rw [hpath, h.path_of_cache he, he] at hcached
    exact (Option.some.inj hcached).symm
  rw [getElem?_after_resolved, ← h.path_of_cache he, find?_path_eq_some hmem hunique]
  rfl

/-- **The second pass** leaves all definitions and all files that are not dependents.  A dependent
is resolved against the graph after the first pass, unless it is listed or some file fails. -/
theorem secondPass_spec (h : a.Kept known owner t) (token : CancelToken) (keys : LookupKeys)
    (batch : List String) (run : Run) (tieBreak : TieBreak) : ∃ t',
      { a with store := (a.secondPass token keys batch run).store }.Kept known owner t' ∧
      t.SameDefinitions t' ∧
      a.store.graph.Alike tieBreak (a.secondPass token keys batch run).store.graph ∧
      (∀ p ∉ dependents a.store.graph keys batch, t'[p]? = t[p]?) ∧
      ∀ p ∈ dependents a.store.graph keys batch,
        (p ∈ (a.secondPass token keys batch run).needsReanalysis ∧
            ∃ m, token.isSet m) ∨
          (∃ o ∈ (a.secondPass token keys batch run).outcomes,
            ∃ reason, o.status = .failed reason) ∨
          ∃ e, a.cache[p]? = some e ∧
            t'[p]? = some (a.contribution a.store.graph e) := by
  obtain ⟨paths, hpaths⟩ : ∃ paths, paths = dependents a.store.graph keys batch := ⟨_, rfl⟩
  have hcases := (Analyzer.secondPass_spec a token keys batch run).2
  generalize a.secondPass token keys batch run = second at hcases ⊢
  rw [← hpaths] at hcases ⊢
  rcases hcases with ⟨happly, houtcomes, -⟩ | ⟨hstore, -, hlisted, hset⟩
  · obtain ⟨hkept, hsucceeds⟩ := h.secondPass paths happly
    have hfiles : ∀ e ∈ (paths.filterMap a.cached?).filter (a.isSound a.store.graph),
        a.cache[e.findings.path]? = some e := fun e he =>
      h.cache_of_mem_cached (mem_filter.mp he).1
    have hdefinitions : t.SameDefinitions
        (t.after (a.resolved a.store.graph (paths.filterMap a.cached?)).changed []) :=
      h.paired.sameDefinitions_refresh hfiles
    refine ⟨_, hkept, hdefinitions, Graph.alike_of_succeeds h.holds.shows hkept.holds.shows
      h.identified_contributions hkept.identified_contributions hdefinitions hsucceeds tieBreak,
      fun p hp => h.getElem?_refreshed_of_not_mem hp, fun p hp => .inr ?_⟩
    obtain ⟨-, c, hc, -⟩ := (mem_dependents h.holds.shows h.holds.keyed).mp (hpaths ▸ hp)
    obtain ⟨e, -, he, -, -⟩ := h.exists_cached hc
    rcases status_outcome (a := a) (g := a.store.graph) e with ⟨hsound, -⟩ | ⟨-, reason, hfailed⟩
    · exact .inr ⟨e, he, h.getElem?_refreshed_of_mem hp he hsound⟩
    · have hmem : e ∈ paths.filterMap a.cached? :=
        mem_filterMap.mpr ⟨p, hp, by rw [h.cached?_eq, he]⟩
      refine .inl ⟨reresolved (a.outcome a.store.graph e), ?_, reason, status_reresolved hfailed⟩
      rw [houtcomes]
      exact mem_map.mpr ⟨_, mem_map.mpr ⟨e, hmem, rfl⟩, rfl⟩
  · refine ⟨t, ?_, fun _ => rfl, ?_, fun _ _ => rfl, fun p hp =>
      .inl ⟨hlisted (fun _ _ he => h.path_of_cache he) p hp, _, hset⟩⟩
    · rw [hstore]
      exact h
    · rw [hstore]
      exact Graph.Alike.refl tieBreak _

/-! ### One update -/

theorem outcome_of_left (h : a.Kept known owner t) {o : FileOutcome}
    (ho : o ∈ a.batchOutcomes files removed) (hpath : o.path = p) (hgone : p ∉ a.gone files removed)
    (hleft : ∀ e ∈ (a.firstPass files removed).files, e.findings.path ≠ p) :
    (o.status = .unchanged ∨ ∃ reason, o.status = .skipped reason) ∨
      ∃ reason, o.status = .failed reason := by
  rw [batchOutcomes, h.refreshedFiles_eq_nil, map_nil, append_nil, mem_append,
    mem_append] at ho
  rcases ho with (ho | ho) | ho
  · obtain ⟨x, -, hprepare⟩ := mem_skipped.mp ho
    obtain ⟨-, ⟨hskipped, -⟩ | ⟨hunchanged, -⟩⟩ := prepare_eq_inr hprepare
    · exact .inl (.inr hskipped)
    · exact .inl (.inl hunchanged)
  · obtain ⟨e, he, rfl⟩ := mem_map.mp ho
    rcases status_outcome (a := a) (g := a.staged files removed) e with ⟨hsound, -⟩ | ⟨-, hfailed⟩
    · rw [path_outcome] at hpath
      exact absurd hpath (hleft e (mem_filter.mpr ⟨he, hsound⟩))
    · exact .inr hfailed
  · obtain ⟨q, hq, rfl⟩ := mem_map.mp ho
    obtain rfl : q = p := hpath
    exact absurd hq hgone

theorem exists_failed (he : e ∈ a.changedFiles (some a.store.graph) files)
    (hsound : a.isSound (a.staged files removed) e = false) :
    ∃ o ∈ a.batchOutcomes files removed, ∃ reason, o.status = .failed reason := by
  rcases status_outcome (a := a) (g := a.staged files removed) e with ⟨h, -⟩ | ⟨-, hfailed⟩
  · rw [hsound] at h
    cases h
  · refine ⟨a.outcome (a.staged files removed) e, ?_, hfailed⟩
    rw [batchOutcomes]
    exact mem_append_left _ (mem_append_right _ (mem_map.mpr ⟨e, he, rfl⟩))

section Update

variable (h : a.Kept known owner t) (hknown : ∀ x ∈ byPath files, known x.1 x.2)
  (happly : a.store.applyChanges (a.firstPass files removed).changed (a.gone files removed) =
    .ok store)
include h hknown happly

section Left

variable (hlast : last.Sound) (halike : store.graph.Alike a.settings.resolver.tieBreak last)
include hlast halike

/-- **A file of a batch is fresh after it**, unless some file fails. -/
theorem contribution_eq_or_failed (e : Extracted κ) :
    a.contribution last e = a.contribution (a.staged files removed) e ∨
      ∃ o ∈ a.batchOutcomes files removed, ∃ reason, o.status = .failed reason := by
  by_cases hall : ∀ e ∈ a.changedFiles (some a.store.graph) files,
      a.isSound (a.staged files removed) e
  · obtain ⟨hstaged, hsound⟩ := h.staged_alike hknown hall happly a.settings.resolver.tieBreak
    exact .inl
      (ResolverOptions.resolve_eq_of_alike (hstaged.trans halike) hsound hlast e.key e.findings)
  · simp only [not_forall, Bool.not_eq_true] at hall
    obtain ⟨x, hx, hfails⟩ := hall
    exact .inr (exists_failed hx hfails)

variable (hcoherent : t.Coherent)
  (hcoherent' : (t.after (a.firstPass files removed).changed (a.gone files removed)).Coherent)
  (hcovered : ∀ r ∈ e.findings.references, r.target.Covered)
  (hapart : ∀ r ∈ e.findings.references, ∀ probe ∈ r.target.probes,
    a.store.graph.ApartFrom probe ∧ last.ApartFrom probe)
include hcoherent hcoherent' hcovered hapart

/-- **A file outside a batch that depends on nothing that changed stays fresh.** -/
theorem contribution_eq_of_left
    (hlookups : ∀ k ∈ (a.contribution a.store.graph e).lookups, k ∉ a.touchedKeys files removed) :
    a.contribution last e = a.contribution a.store.graph e := by
  obtain ⟨hbetween, hsucceeds⟩ := h.between hknown happly
  refine ResolverOptions.resolve_eq_of_agree h.identified.graph hlast a.settings.resolver e.key
    e.findings hcovered hapart fun k hk => ?_
  have hfirst : e.findings.AgreeUnder a.settings.resolver.tieBreak a.store.graph store.graph k :=
    agreeUnder_of_not_changed (hlookups k hk) h.holds.shows hbetween.holds.shows h.identified.graph
      hbetween.identified.graph hsucceeds h.identified_contributions
      hbetween.identified_contributions hcoherent hcoherent' e.findings _
  exact hfirst.trans (halike.agreeUnder hbetween.identified.graph hlast e.findings k)

/-- **A file that neither pass takes up stays fresh**, unless it was submitted and left as it was
although it depends on what changed, or failed. -/
theorem contribution_eq_or_held (hfresh : t[p]? = some (a.contribution a.store.graph e))
    (hleft : (t.after (a.firstPass files removed).changed (a.gone files removed))[p]? = t[p]?)
    (hother : ∀ e ∈ (a.firstPass files removed).files, e.findings.path ≠ p)
    (hgone : p ∉ a.gone files removed)
    (hdependent : p ∉ dependents store.graph (a.touchedKeys files removed)
      ((a.batchOutcomes files removed).map (·.path))) :
    a.contribution last e = a.contribution a.store.graph e ∨
      ((∃ o ∈ a.batchOutcomes files removed, o.path = p ∧
          (o.status = .unchanged ∨ ∃ reason, o.status = .skipped reason)) ∧
        ∃ k ∈ (a.contribution a.store.graph e).lookups, k ∈ a.touchedKeys files removed) ∨
      ∃ o ∈ a.batchOutcomes files removed, ∃ reason, o.status = .failed reason := by
  by_cases hlookups : ∀ k ∈ (a.contribution a.store.graph e).lookups,
      k ∉ a.touchedKeys files removed
  · exact .inl (h.contribution_eq_of_left hknown happly hlast halike hcoherent hcoherent' hcovered
      hapart hlookups)
  · simp only [not_forall, not_not] at hlookups
    obtain ⟨k, hk, hmem⟩ := hlookups
    obtain ⟨hbetween, -⟩ := h.between hknown happly
    -- it depends on what changed, so only being in the batch keeps it from being a dependent
    have hbatch : p ∈ (a.batchOutcomes files removed).map (·.path) := by
      by_contra hbatch
      refine hdependent ((mem_dependents hbetween.holds.shows hbetween.holds.keyed).mpr
        ⟨hbatch, a.contribution a.store.graph e, ?_, k, hk, hmem⟩)
      rw [hleft, hfresh]
    obtain ⟨o, ho, hpath⟩ := mem_map.mp hbatch
    rcases h.outcome_of_left ho hpath hgone hother with hheld | hfailed
    · exact .inr (.inl ⟨⟨o, ho, hpath, hheld⟩, k, hk, hmem⟩)
    · exact .inr (.inr ⟨o, ho, hfailed⟩)

end Left

/-- **After both passes each file is fresh**, or it is listed, or it was submitted and left as it
was, or some file failed, or it was not fresh before. -/
theorem lastPass_spec (token : CancelToken) (run : Run) {last : SecondPass κ}
    (hlast : a.lastPass files removed token store run = last) : ∃ t',
      { a.between files removed store with store := last.store }.Kept known owner t' ∧
      (t.Coherent → t'.Coherent → ∀ p e,
        (a.between files removed store).cache[p]? = some e →
        (∀ r ∈ e.findings.references, r.target.Covered) →
        (∀ r ∈ e.findings.references, ∀ probe ∈ r.target.probes,
          a.store.graph.ApartFrom probe ∧ last.store.graph.ApartFrom probe) →
        t'[p]? = some (a.contribution last.store.graph e) ∨
          (p ∈ last.needsReanalysis ∧ ∃ m, token.isSet m) ∨
          ((∃ o ∈ a.batchOutcomes files removed, o.path = p ∧
              (o.status = .unchanged ∨ ∃ reason, o.status = .skipped reason)) ∧
            ∃ k ∈ (a.contribution a.store.graph e).lookups, k ∈ a.touchedKeys files removed) ∨
          (∃ o ∈ a.batchOutcomes files removed ++ last.outcomes,
            ∃ reason, o.status = .failed reason) ∨
          (a.cache[p]? = some e ∧ t[p]? ≠ some (a.contribution a.store.graph e))) := by
  obtain ⟨hbetween, -⟩ := h.between hknown happly
  have hspec := hbetween.secondPass_spec token (a.touchedKeys files removed)
    ((a.batchOutcomes files removed).map (·.path)) run a.settings.resolver.tieBreak
  have hlast : (a.between files removed store).secondPass token (a.touchedKeys files removed)
      ((a.batchOutcomes files removed).map (·.path)) run = last := hlast
  rw [hlast] at hspec
  obtain ⟨t', hkept, hdefinitions, halike, hleft, hdependents⟩ := hspec
  have hsound : last.store.graph.Sound := hkept.identified.graph
  have halike : store.graph.Alike a.settings.resolver.tieBreak last.store.graph := halike
  refine ⟨t', hkept, fun hcoherent hcoherent' p e he hcovered hapart => ?_⟩
  by_cases hdependent : p ∈ dependents store.graph (a.touchedKeys files removed)
      ((a.batchOutcomes files removed).map (·.path))
  · rcases hdependents p hdependent with hlisted | ⟨o, ho, hfailed⟩ | ⟨e', he', hc⟩
    · exact .inr (.inl hlisted)
    · exact .inr (.inr (.inr (.inl ⟨o, mem_append_right _ ho, hfailed⟩)))
    · obtain rfl := Option.some.inj (he.symm.trans he')
      refine .inl (hc.trans (congrArg some ?_))
      exact (ResolverOptions.resolve_eq_of_alike halike hbetween.identified.graph hsound e.key
        e.findings).symm
  · rw [h.cache_between] at he
    have hfirst : (t.after (a.firstPass files removed).changed (a.gone files removed))[p]? =
        (((a.firstPass files removed).files.reverse.find? (·.findings.path == p)).map
          (a.contribution (a.staged files removed))).or
            (if p ∈ a.gone files removed then none else t[p]?) :=
      getElem?_after_resolved t _ _ p
    have hfailed : (∃ o ∈ a.batchOutcomes files removed, ∃ reason,
        o.status = .failed reason) → ∃ o ∈ a.batchOutcomes files removed ++ last.outcomes,
          ∃ reason, o.status = .failed reason :=
      fun ⟨o, ho, hfailed⟩ => ⟨o, mem_append_left _ ho, hfailed⟩
    rw [hleft p hdependent]
    cases hfind : (a.firstPass files removed).files.reverse.find? (·.findings.path == p) with
    | some e' =>
      rw [hfind] at he hfirst
      obtain rfl := Option.some.inj he
      rcases h.contribution_eq_or_failed hknown happly hsound halike e' with heq | hfails
      · exact .inl (hfirst.trans (congrArg some heq.symm))
      · exact .inr (.inr (.inr (.inl (hfailed hfails))))
    | none =>
      have hother : ∀ e ∈ (a.firstPass files removed).files, e.findings.path ≠ p := by
        intro x hx hpath
        exact find?_eq_none.mp hfind x (mem_reverse.mpr hx) (by simp [hpath])
      rw [hfind, Option.none_or] at he
      rw [hfind, Option.map_none, Option.none_or] at hfirst
      split at he
      · cases he
      · next hgone =>
        rw [if_neg hgone] at hfirst
        by_cases hfresh : t[p]? = some (a.contribution a.store.graph e)
        · rcases h.contribution_eq_or_held hknown happly hsound halike hcoherent
              (hdefinitions.coherent hcoherent') hcovered hapart hfresh hfirst hother hgone
              hdependent with heq | hheld | hfails
          · exact .inl (hfirst.trans (hfresh.trans (congrArg some heq.symm)))
          · exact .inr (.inr (.inl hheld))
          · exact .inr (.inr (.inr (.inl (hfailed hfails))))
        · exact .inr (.inr (.inr (.inr ⟨he, hfresh⟩)))

end Update

/-- **After an update each file is fresh**, or it is listed, or it was submitted and left as it was
although it depends on what changed, or some file failed, or it was not fresh before. -/
theorem update (h : a.Kept known owner t) (hknown : ∀ x ∈ byPath files, known x.1 x.2)
    {token : CancelToken} {summary : Summary}
    (hok : (a.update files removed token).result = .ok summary) :
    ∃ t', (a.update files removed token).analyzer.Kept known owner t' ∧
      (t.Coherent → t'.Coherent → ∀ p e,
        (a.update files removed token).analyzer.cache[p]? = some e →
        (∀ r ∈ e.findings.references, r.target.Covered) →
        (∀ r ∈ e.findings.references, ∀ probe ∈ r.target.probes, a.store.graph.ApartFrom probe ∧
            (a.update files removed token).analyzer.store.graph.ApartFrom probe) →
        t'[p]? = some (a.contribution (a.update files removed token).analyzer.store.graph e) ∨
          (p ∈ summary.needsReanalysis ∧ ∃ m, token.isSet m) ∨ ((∃ o ∈ summary.files, o.path = p ∧
              (o.status = .unchanged ∨ ∃ reason, o.status = .skipped reason)) ∧
            ∃ k ∈ (a.contribution a.store.graph e).lookups, k ∈ a.touchedKeys files removed) ∨
          (∃ o ∈ summary.files, ∃ reason, o.status = .failed reason) ∨
          (a.cache[p]? = some e ∧ t[p]? ≠ some (a.contribution a.store.graph e))) := by
  obtain ⟨store, run, happly, -, hanalyzer, -, hneeds, hfiles⟩ := summary_of_update hok
  obtain ⟨t', hkept, hfresh⟩ := h.lastPass_spec hknown happly token run rfl
  rw [hanalyzer, hneeds]
  refine ⟨t', hkept, fun hcoherent hcoherent' p e he hcovered hapart => ?_⟩
  rcases hfresh hcoherent hcoherent' p e he hcovered hapart with
    hnow | hlisted | ⟨⟨o, ho, hheld⟩, hlookup⟩ | ⟨o, ho, hfailed⟩ | hbefore
  · exact .inl hnow
  · exact .inr (.inl hlisted)
  · exact .inr (.inr (.inl
      ⟨⟨o, (hfiles o).mpr (mem_append_left _ ho), hheld⟩, hlookup⟩))
  · exact .inr (.inr (.inr (.inl ⟨o, (hfiles o).mpr ho, hfailed⟩)))
  · exact .inr (.inr (.inr (.inr hbefore)))

end Kept

end Analyzer

end AppAtlas
