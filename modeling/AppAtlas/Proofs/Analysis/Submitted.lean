import AppAtlas.Proofs.Analysis.Atomic
import AppAtlas.Proofs.Analysis.Incremental
import AppAtlas.Proofs.Extract.Labels
import AppAtlas.Proofs.Store.InOrder

/-!
# What is held for a submitted path

An update replaces what the store holds for a path by what is found in the file submitted for it, if
it is a new version.  A version is told from another by its path and its content alone.  So the same
content submitted as a file of another kind is taken for the version that is held, and what it was
entered as the first time stays.  A file that is skipped, because its path is excluded or no kind
claims it, is not entered either, and what was held for its path stays, too.

* `submitted_content_replaces_or_stays`: what is held for a submitted path after an update.
* `resubmitted_content_stays`: the same content as a file of another kind, and a file that is no
  longer claimed, leave what was held.
-/

namespace AppAtlas

open List Std OrderedMap

variable {κ : Type}

namespace Analyzer

variable {a : Analyzer κ} {files : List SourceFile} {removed : List String} {p : String}
  {f : SourceFile} {e : Extracted κ}

/-! ### The files of a batch -/

theorem normalize_of_mem_byPath (hf : (p, f) ∈ byPath files) : FilePath.normalize p = p := by
  obtain ⟨g, -, rfl⟩ := mem_map.mp (exists_mem_byPath_iff.mp ⟨f, hf⟩)
  exact FilePath.normalize_normalize g.path

theorem path_of_version? (hx : a.extractor.Labels) (hp : FilePath.normalize p = p)
    (he : a.version? p f = some e) : e.findings.path = p := by
  obtain ⟨artifact, rfl⟩ := exists_artifact he
  exact (hx artifact p f.content).path.trans hp

theorem not_mem_gone (hf : (p, f) ∈ byPath files) : p ∉ a.gone files removed := fun hgone =>
  (mem_gone.mp hgone).2.1 f hf

theorem isHeld_iff {g : Graph κ} {key : FileKey} :
    isHeld (some g) p key ↔ g.fileKey? p = some key := by
  rw [isHeld, Option.any_some, beq_iff_eq]

variable [Confidence κ]

section

variable (hx : a.extractor.Labels) (hf : (p, f) ∈ byPath files)

include hx hf

theorem mem_batch : p ∈ (a.batchOutcomes files removed).map (·.path) := by
  have hp := normalize_of_mem_byPath hf
  rw [batchOutcomes, map_append, map_append, map_append]
  refine mem_append_left _ ?_
  cases hprepare : a.prepare (some a.store.graph) p f with
  | inr o =>
    have ho : o ∈ (a.classify (some a.store.graph) files).2 := mem_skipped.mpr ⟨_, hf, hprepare⟩
    refine mem_append_left _ (mem_append_left _ (mem_map.mpr ⟨o, ho, ?_⟩))
    exact (prepare_eq_inr hprepare).1
  | inl q =>
    obtain ⟨e, he, hextract, -⟩ := prepare_eq_inl hprepare
    have hpath := path_of_version? hx hp he
    have hq : q ∈ (a.classify (some a.store.graph) files).1 := mem_prepared.mpr ⟨_, hf, hprepare⟩
    -- a version that is held is only read for its findings, any other is resolved
    cases hheld : isHeld (some a.store.graph) p e.key with
    | true =>
      have hrefreshed : e ∈ a.refreshedFiles (some a.store.graph) files := by
        refine mem_map.mpr ⟨(e, true), mem_filter.mpr ⟨?_, rfl⟩, rfl⟩
        exact mem_map.mpr ⟨q, hq, by rw [hextract, hheld]⟩
      rw [map_map]
      exact mem_append_left _ (mem_append_right _ (mem_map.mpr
        ⟨e, hrefreshed, hpath⟩))
    | false =>
      have hchanged : e ∈ a.changedFiles (some a.store.graph) files :=
        mem_changedFiles.mpr ⟨(p, f), hf, he, hheld⟩
      refine mem_append_right _ (mem_map.mpr
        ⟨a.outcome (a.staged files removed) e, mem_map.mpr ⟨e, hchanged, rfl⟩, ?_⟩)
      rw [path_outcome, hpath]

theorem of_mem_files (he : e ∈ (a.firstPass files removed).files) (hpath : e.findings.path = p) :
    a.version? p f = some e ∧ a.store.graph.fileKey? p ≠ some e.key ∧
      (a.contribution (a.staged files removed) e).IsSound := by
  obtain ⟨hchanged, hsound⟩ := mem_filter.mp he
  obtain ⟨⟨q, g⟩, hg, hversion, hheld⟩ := mem_changedFiles.mp hchanged
  obtain rfl : q = p := (path_of_version? hx (normalize_of_mem_byPath hg) hversion).symm.trans hpath
  obtain rfl := eq_of_mem_byPath hf hg
  refine ⟨hversion, fun hkey => ?_, isSound_iff.mp hsound⟩
  rw [isHeld_iff.mpr hkey] at hheld
  cases hheld

/-- **A new version that is sound is entered.** -/
theorem getElem?_firstPass_of_new
    (he : a.version? p f = some e) (hnew : a.store.graph.fileKey? p ≠ some e.key)
    (hsound : (a.contribution (a.staged files removed) e).IsSound) (t : Contributions κ) :
    (t.after (a.firstPass files removed).changed (a.gone files removed))[p]? =
      some (a.contribution (a.staged files removed) e) := by
  have hmem : e ∈ (a.firstPass files removed).files := by
    refine mem_filter.mpr ⟨mem_changedFiles.mpr ⟨(p, f), hf, he, ?_⟩, isSound_iff.mpr hsound⟩
    rw [← Bool.not_eq_true, isHeld_iff]
    exact hnew
  have hpath := path_of_version? hx (normalize_of_mem_byPath hf) he
  have hfind : (a.firstPass files removed).files.reverse.find? (·.findings.path == p) =
      some e := by
    rw [← hpath]
    refine find?_path_eq_some hmem fun e' he' hpath' => ?_
    have hversion := (of_mem_files hx hf he' (hpath'.trans hpath)).1
    exact Option.some.inj (hversion.symm.trans he)
  rw [firstPass, getElem?_after_resolved]
  rw [firstPass] at hfind
  rw [hfind]
  rfl

/-- **A path keeps what it has** if nothing is submitted for it that is new and sound. -/
theorem getElem?_firstPass_of_left
    (hleft : ∀ e, a.version? p f = some e → a.store.graph.fileKey? p = some e.key ∨
      ¬(a.contribution (a.staged files removed) e).IsSound) (t : Contributions κ) :
    (t.after (a.firstPass files removed).changed (a.gone files removed))[p]? = t[p]? := by
  refine Contributions.after_of_not_mem (fun hmem => ?_) (not_mem_gone hf) t
  obtain ⟨c, hc, hpath⟩ := mem_map.mp hmem
  obtain ⟨e, he, rfl⟩ := mem_map.mp hc
  obtain ⟨hversion, hnew, hsound⟩ := of_mem_files hx hf he hpath
  rcases hleft e hversion with hkey | hfault
  · exact hnew hkey
  · exact hfault hsound

end

/-! ### Both passes -/

variable {owner : FileKey → String} {t : Contributions κ} {store : Store κ} {token : CancelToken}

theorem owner_dependentPass (ha : Tidy a.cache) (hs : store.Holds owner t) {c : Contribution κ}
    (hc : c ∈ (a.dependentPass files removed store).changed) :
    owner c.key = c.path ∧ c.path ∈ dependents store.graph (a.touchedKeys files removed)
      ((a.batchOutcomes files removed).map (·.path)) := by
  obtain ⟨e, he, rfl⟩ := mem_map.mp hc
  obtain ⟨q, hq, hcached⟩ := mem_filterMap.mp (mem_filter.mp he).1
  obtain ⟨hcache, hkey⟩ := Option.filter_eq_some_iff.mp hcached
  have hpath : e.findings.path = q := (ha.remember _ _) q e hcache
  have hfile : store.graph.files[q]? = some e.key := eq_of_beq hkey
  rw [hs.shows.files, Option.map_eq_some_iff] at hfile
  obtain ⟨d, hd, hdkey⟩ := hfile
  rw [path_contribution, hpath]
  refine ⟨?_, hq⟩
  show owner e.key = q
  rw [← hdkey]
  exact (hs.keyed q d hd).2

/-- **After an update the store holds contributions again**, and for the paths of the batch those
of the first pass. -/
theorem holds_update (ha : Tidy a.cache) (hs : a.store.Holds owner t)
    (howner : ∀ c ∈ (a.firstPass files removed).changed, owner c.key = c.path) {summary : Summary}
    (hok : (a.update files removed token).result = .ok summary) :
    ∃ t', (a.update files removed token).analyzer.store.Holds owner t' ∧
      ∀ p ∈ (a.batchOutcomes files removed).map (·.path),
        t'[p]? = (t.after (a.firstPass files removed).changed (a.gone files removed))[p]? := by
  obtain ⟨store, run, happly, hrun, hanalyzer, -⟩ := summary_of_update hok
  obtain ⟨hholds, -⟩ := hs.applyChanges howner happly
  rw [hanalyzer]
  -- the second pass touches dependents alone, and these are outside the batch
  rcases lastPass_cases ha files removed store hrun with ⟨-, hagain⟩ | ⟨-, hstore, -⟩
  · obtain ⟨hholds', -⟩ :=
      hholds.applyChanges (fun c hc => (owner_dependentPass ha hholds hc).1) hagain
    refine ⟨_, hholds', fun p hp => Contributions.after_of_not_mem (fun hmem => ?_)
      not_mem_nil _⟩
    obtain ⟨c, hc, rfl⟩ := mem_map.mp hmem
    exact (mem_dependents_iff.mp (owner_dependentPass ha hholds hc).2).1 hp
  · exact ⟨_, hstore.symm ▸ hholds, fun p _ => rfl⟩

/-- **Updates keep the store in order**, as long as versions tell files apart. -/
theorem inOrder_update (ha : Tidy a.cache) (hs : a.store.InOrder)
    (hkeys : a.store.TellsApart (a.firstPass files removed).changed) :
    (a.update files removed token).analyzer.store.InOrder := by
  rcases update_cases a files removed token with
    ⟨store, run, happly, hrun, hupdate⟩ | ⟨⟨hsame, -⟩, -⟩
  · have hfirst : store.InOrder := hs.applyChanges hkeys happly
    rw [hupdate]
    show (a.lastPass files removed token store run).store.InOrder
    rcases lastPass_cases ha files removed store hrun with ⟨-, hagain⟩ | ⟨-, hstore, -⟩
    · obtain ⟨owner, t, hholds, -⟩ := hfirst.holds
      exact hfirst.applyChanges
        (hholds.tellsApart fun c hc => (owner_dependentPass ha hholds hc).1) hagain
    · rw [hstore]
      exact hfirst
  · rw [hsame]
    exact hs

theorem settings_update (a : Analyzer κ) (files : List SourceFile) (removed : List String)
    (token : CancelToken) : (a.update files removed token).analyzer.settings = a.settings ∧
      (a.update files removed token).analyzer.extractor = a.extractor := by
  rcases update_cases a files removed token with ⟨store, run, -, -, hupdate⟩ | ⟨⟨hsame, -⟩, -⟩
  · rw [hupdate]
    exact ⟨rfl, rfl⟩
  · rw [hsame]
    exact ⟨rfl, rfl⟩

/-! ### Content that is held -/

/-- What an analyzer holds for a path under the key of some content is what is found in that
content, as a file of the kind of the findings at hand. -/
theorem Kept.of_fileKey? {known : String → SourceFile → Prop} (h : a.Kept known owner t)
    (hx : a.extractor.Labels)
    (hkeys : ∀ g, known p g → FileKey.of p g.content = FileKey.of p f.content →
      g.content = f.content) (hheld : a.store.graph.fileKey? p = some (FileKey.of p f.content)) :
    ∃ c e, t[p]? = some c ∧ a.cached? p = some e ∧ c.nodes = (definitions e).nodes ∧
      e = ⟨FileKey.of p f.content, a.extractor.findings e.findings.artifact p f.content⟩ := by
  have hfile : a.store.graph.files[p]? = some (FileKey.of p f.content) := hheld
  rw [h.holds.shows.files, Option.map_eq_some_iff] at hfile
  obtain ⟨c, hc, hkey⟩ := hfile
  obtain ⟨e, g, he, rfl, file, hknown, hversion⟩ := h.exists_cached hc
  refine ⟨_, e, hc, (h.cached?_eq p).trans he, rfl, ?_⟩
  obtain ⟨artifact, rfl⟩ := exists_artifact hversion
  have hcontent := hkeys file hknown hkey
  rw [hcontent, (hx artifact p f.content).kind]

end Analyzer

open Analyzer

variable [Confidence κ]

/-- **What is held for a submitted path after an update.**  A version that the graph does not hold
replaces what was held, if it is sound.  In all other cases, also if the file is skipped, what was
held stays.  If the analyzer itself entered what it holds, then a version held already stays as what
is found in the submitted content, read as a file of the kind it had when it was entered. -/
theorem submitted_content_replaces_or_stays {a : Analyzer κ} (ha : a.InUse) (hs : a.store.InOrder)
    (hx : a.extractor.Labels) {files : List SourceFile} {removed : List String}
    (hkeys : a.store.TellsApart (a.firstPass files removed).changed) {token : CancelToken}
    {summary : Summary} (hok : (a.update files removed token).result = .ok summary) {p : String}
    {f : SourceFile} (hf : files.reverse.find? (FilePath.normalize ·.path == p) = some f) :
    (∀ e : Extracted κ, a.version? p f = some e → a.store.graph.fileKey? p ≠ some e.key →
      (a.contribution (a.staged files removed) e).IsSound →
      ∃ c : Contribution κ,
        (a.update files removed token).analyzer.store.ledger.contributionFor? p = some c ∧
        c.key = e.key ∧ c.nodes = (definitions e).nodes) ∧
    ((∀ e : Extracted κ, a.version? p f = some e → a.store.graph.fileKey? p = some e.key ∨
        ¬(a.contribution (a.staged files removed) e).IsSound) →
      (a.update files removed token).analyzer.store.ledger.contributionFor? p =
        a.store.ledger.contributionFor? p) ∧
    ∀ known : String → SourceFile → Prop, Reached a.settings a.extractor known a →
      (∀ (q : String) (g : SourceFile), known q g → FilePath.normalize q = q) → known p f →
      (∀ (q q' : String) (g g' : SourceFile), known q g → known q' g' →
        FileKey.of q g.content = FileKey.of q' g'.content → q = q' ∧ g.content = g'.content) →
      a.store.graph.fileKey? p = some (FileKey.of p f.content) →
      ∃ (c : Contribution κ) (e : Extracted κ),
        (a.update files removed token).analyzer.store.ledger.contributionFor? p = some c ∧
        a.cached? p = some e ∧ c.nodes = (definitions e).nodes ∧
        e = ⟨FileKey.of p f.content, a.extractor.findings e.findings.artifact p f.content⟩ := by
  have hf : (p, f) ∈ byPath files := mem_byPath_iff.mpr hf
  obtain ⟨owner, t, hholds, -⟩ := hs.holds
  -- versions of the files submitted and of those held tell their paths together
  obtain ⟨owner', hholds', howner⟩ := hholds.exists_owner hkeys
  obtain ⟨t', hafter, hbatch⟩ := holds_update ha.tidy hholds' howner hok
  have hp := hbatch p (mem_batch hx hf)
  have hstays : (∀ e : Extracted κ, a.version? p f = some e →
      a.store.graph.fileKey? p = some e.key ∨
        ¬(a.contribution (a.staged files removed) e).IsSound) →
      (a.update files removed token).analyzer.store.ledger.contributionFor? p =
        a.store.ledger.contributionFor? p := by
    intro hleft
    rw [hafter.records.contributionFor?_eq, hholds.records.contributionFor?_eq, hp]
    exact getElem?_firstPass_of_left hx hf hleft t
  refine ⟨fun e he hnew hsound => ?_, hstays,
    fun known hreached hnormal hknown hdistinct hheld => ?_⟩
  · refine ⟨a.contribution (a.staged files removed) e, ?_, rfl, rfl⟩
    rw [hafter.records.contributionFor?_eq, hp]
    exact getElem?_firstPass_of_new hx hf he hnew hsound t
  · rw [hstays fun e he => Or.inl (hheld.trans (congrArg some (key_of_version? he).symm))]
    obtain ⟨names, hnames⟩ := exists_names (a := initial a.settings a.extractor)
      (fun q e ⟨g, hg, he⟩ => path_of_version? hx (hnormal q g hg) he)
      (fun q q' g g' hg hg' hkey => (hdistinct q q' g g' hg hg' hkey).1)
    obtain ⟨t₀, hkept⟩ := hreached.kept hnames
    rw [hkept.contributionFor?_eq]
    exact hkept.of_fileKey? hx (fun g hg hkey => (hdistinct p p g f hg hknown hkey).2) hheld

/-! ### The reader submitted again -/

/-- The reader with other content, under another spelling of its path. -/
def rewrittenReader : SourceFile := { path := "./a.sql", content := "delete from u;" }

def readerAsSchema : SourceFile := { reader with artifact := some .schema }

def readerFiles : List (String × SourceFile) := [("a.sql", reader), ("a.sql", readerAsSchema)]

theorem inOrder_readerSeen : readerSeen.store.InOrder := by
  rw [readerSeen]
  exact inOrder_update (a := initial .standard (.standard .standard)) tidy_empty .empty
    (by decide +kernel)

theorem settings_readerSeen :
    readerSeen.settings = .standard ∧ readerSeen.extractor = .standard .standard := by
  rw [readerSeen]
  exact settings_update (initial .standard (.standard .standard)) [reader] [] .never

theorem labels_readerSeen : readerSeen.extractor.Labels := by
  rw [settings_readerSeen.2]
  exact Extractor.labels_standard _

/-- Other content replaces what was held for the reader.  The same content as a schema file does
not: the statement found in it as a script stays. -/
theorem reader_replaced_or_stays :
    (∃ (e : Extracted Rat) (c : Contribution Rat),
      readerSeen.version? "a.sql" rewrittenReader = some e ∧
      (readerSeen.update [rewrittenReader] []).analyzer.store.ledger.contributionFor? "a.sql" =
        some c ∧ c.nodes = (definitions e).nodes) ∧
    ∃ (e : Extracted Rat) (c : Contribution Rat),
      readerSeen.cached? "a.sql" = some e ∧ e.findings.artifact = .sql ∧
      (readerSeen.update [readerAsSchema] []).analyzer.store.ledger.contributionFor? "a.sql" =
        some c ∧ c.nodes = (definitions e).nodes := by
  have hused : readerSeen.InUse := (InUse.start .standard (.standard .standard) .empty).update
  constructor
  · obtain ⟨hresult, hkeys, hversion⟩ :
        (readerSeen.update [rewrittenReader] []).result.toOption.map (·.needsReanalysis) =
          some [] ∧
        readerSeen.store.TellsApart (readerSeen.firstPass [rewrittenReader] []).changed ∧
        (readerSeen.version? "a.sql" rewrittenReader).any (fun e =>
          readerSeen.store.graph.fileKey? "a.sql" ≠ some e.key ∧
            (readerSeen.contribution (readerSeen.staged [rewrittenReader] []) e).IsSound) =
          true := by
      decide +kernel
    have hlast : [rewrittenReader].reverse.find? (FilePath.normalize ·.path == "a.sql") =
        some rewrittenReader := by decide +kernel
    obtain ⟨summary, hok, -⟩ := exists_summary hresult
    obtain ⟨e, he, hnew⟩ := (Option.any_eq_true _ _).mp hversion
    obtain ⟨hkey, hsound⟩ := of_decide_eq_true hnew
    obtain ⟨hreplaces, -, -⟩ := submitted_content_replaces_or_stays hused inOrder_readerSeen
      labels_readerSeen hkeys hok hlast
    obtain ⟨c, hc, -, hnodes⟩ := hreplaces e he hkey hsound
    exact ⟨e, c, he, hc, hnodes⟩
  · obtain ⟨hresult, hkeys, hheld, hkind⟩ :
        (readerSeen.update [readerAsSchema] []).result.toOption.map (·.needsReanalysis) =
          some [] ∧
        readerSeen.store.TellsApart (readerSeen.firstPass [readerAsSchema] []).changed ∧
        readerSeen.store.graph.fileKey? "a.sql" =
          some (FileKey.of "a.sql" readerAsSchema.content) ∧
        (readerSeen.cached? "a.sql").map (·.findings.artifact) = some .sql := by
      decide +kernel
    have hlast : [readerAsSchema].reverse.find? (FilePath.normalize ·.path == "a.sql") =
        some readerAsSchema := by decide +kernel
    have hnormal : ∀ x ∈ readerFiles, FilePath.normalize x.1 = x.1 := by decide +kernel
    have hdistinct : ∀ x ∈ readerFiles, ∀ y ∈ readerFiles,
        FileKey.of x.1 x.2.content = FileKey.of y.1 y.2.content →
          x.1 = y.1 ∧ x.2.content = y.2.content := by
      decide +kernel
    have hreached : Reached readerSeen.settings readerSeen.extractor
        (fun p file => (p, file) ∈ readerFiles) readerSeen := by
      rw [settings_readerSeen.1, settings_readerSeen.2, readerSeen]
      exact .update .start (by decide +kernel)
    obtain ⟨summary, hok, -⟩ := exists_summary hresult
    obtain ⟨-, -, hstays⟩ := submitted_content_replaces_or_stays hused inOrder_readerSeen
      labels_readerSeen hkeys hok hlast
    obtain ⟨c, e, hc, he, hnodes, -⟩ := hstays (fun p file => (p, file) ∈ readerFiles) hreached
      (fun q g hg => hnormal (q, g) hg) (by decide)
      (fun q q' g g' hg hg' => hdistinct (q, g) hg (q', g') hg') hheld
    rw [he] at hkind
    exact ⟨e, c, he, Option.some.inj hkind, hc, hnodes⟩

def mapperFile : SourceFile where
  path := "m.xml"
  content := "<mapper namespace=\"n\"><delete id=\"d\">delete from t</delete></mapper>"

/-- The file after it became one that no kind claims. -/
def beansFile : SourceFile := { path := "m.xml", content := "<beans/>" }

def mapperSeen : Analyzer Rat :=
  ((initial .standard (.standard .standard)).update [mapperFile] []).analyzer

/-- The reader submitted as a schema file is claimed and sound, and what is held for its path is not
what is found in it.  A mapper file that became one that no kind claims is skipped, and what it
contributed is held after as before. -/
theorem resubmitted_content_stays :
    (∃ (summary : Summary) (e : Extracted Rat) (c : Contribution Rat),
      (readerSeen.update [readerAsSchema] []).result = .ok summary ∧
      readerSeen.version? "a.sql" readerAsSchema = some e ∧
      (readerSeen.contribution (readerSeen.staged [readerAsSchema] []) e).IsSound ∧
      (readerSeen.update [readerAsSchema] []).analyzer.store.ledger.contributionFor? "a.sql" =
        some c ∧ c.nodes ≠ (definitions e).nodes) ∧
    ∃ (summary : Summary) (c : Contribution Rat),
      (mapperSeen.update [beansFile] []).result = .ok summary ∧
      mapperSeen.version? "m.xml" beansFile = none ∧
      (mapperSeen.update [beansFile] []).analyzer.store.ledger.contributionFor? "m.xml" =
        some c ∧ c.nodes ≠ [] := by
  constructor
  · obtain ⟨hresult, hversion, hheld⟩ :
        (readerSeen.update [readerAsSchema] []).result.toOption.map (·.needsReanalysis) =
          some [] ∧
        (readerSeen.version? "a.sql" readerAsSchema).any (fun e =>
          (readerSeen.contribution (readerSeen.staged [readerAsSchema] []) e).IsSound ∧
            (definitions e).nodes = []) = true ∧
        ((readerSeen.update [readerAsSchema] []).analyzer.store.ledger.contributionFor?
          "a.sql").any (fun c => c.nodes ≠ []) = true := by
      decide +kernel
    obtain ⟨summary, hok, -⟩ := exists_summary hresult
    obtain ⟨e, he, hsound⟩ := (Option.any_eq_true _ _).mp hversion
    obtain ⟨hsound, hnodes⟩ := of_decide_eq_true hsound
    obtain ⟨c, hc, hne⟩ := (Option.any_eq_true _ _).mp hheld
    exact ⟨summary, e, c, hok, he, hsound, hc, hnodes ▸ of_decide_eq_true hne⟩
  · obtain ⟨hresult, hversion, hheld⟩ :
        (mapperSeen.update [beansFile] []).result.toOption.map (·.needsReanalysis) = some [] ∧
        mapperSeen.version? "m.xml" beansFile = none ∧
        ((mapperSeen.update [beansFile] []).analyzer.store.ledger.contributionFor?
          "m.xml").any (fun c => c.nodes ≠ []) = true := by
      decide +kernel
    obtain ⟨summary, hok, -⟩ := exists_summary hresult
    obtain ⟨c, hc, hne⟩ := (Option.any_eq_true _ _).mp hheld
    exact ⟨summary, c, hok, hversion, hc, of_decide_eq_true hne⟩

end AppAtlas
