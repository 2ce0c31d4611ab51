import AppAtlas.Proofs.Analysis.Dependents

/-!
# Incremental analysis and rebuilding

A project is analysed by a run of updates, each with some changed and some removed files.  If every
file submitted is a new version, no file fails and no two files define one identity at the same
time, then the graph is the one that a single rebuild makes of the files that are there in the end.
It does not matter how the files were put into batches or in which order they came.

The invariant of such a run is that all contributions are fresh (`Analyzer.Current`).  Contributions
that are fresh are determined by the definitions alone, and the definitions are those of the files.

* `Analyzer.SteadyRun.current`: after such a run all contributions are fresh.
* `sameContent_rebuild_of_steadyRun`: the graph is the one of a rebuild.
-/

namespace AppAtlas

open List Std OrderedMap

variable {κ : Type}

variable {files : List SourceFile} {p : String} {file : SourceFile}

/-! ### Files -/

/-- The files of a project by normalised path. -/
abbrev Files := ExtTreeMap String SourceFile compare

/-- The files after some are removed and then some are written. -/
def Files.after (present : Files) (files : List SourceFile) (removed : List String) : Files :=
  files.foldl (fun m f => m.insert (FilePath.normalize f.path) f)
    ((removed.map FilePath.normalize).foldl (fun m p => m.erase p) present)

theorem insertMany_eq_foldl (m : Files) (files : List SourceFile) :
    m.insertMany (files.map fun f => (FilePath.normalize f.path, f)) =
      files.foldl (fun m f => m.insert (FilePath.normalize f.path) f) m := by
  induction files generalizing m with
  | nil => rw [map_nil, ExtTreeMap.insertMany_nil, foldl_nil]
  | cons f files ih => rw [map_cons, ExtTreeMap.insertMany_cons, ih, foldl_cons]

theorem Analyzer.mem_byPath_iff : (p, file) ∈ byPath files ↔
      files.reverse.find? (FilePath.normalize ·.path == p) = some file := by
  rw [mem_byPath, ExtTreeMap.ofList_eq_insertMany_empty, insertMany_eq_foldl,
    getElem?_insertAll _ (fun f : SourceFile => FilePath.normalize f.path),
    ExtTreeMap.getElem?_empty, Option.or_none]

theorem Files.getElem?_after_of_submitted {present : Files} {removed : List String}
    (h : (p, file) ∈ Analyzer.byPath files) : (present.after files removed)[p]? = some file := by
  rw [Files.after, getElem?_insertAll _ (fun f : SourceFile => FilePath.normalize f.path),
    Analyzer.mem_byPath_iff.mp h, Option.some_or]

theorem Files.getElem?_after_of_not_submitted {present : Files} {removed : List String}
    (h : ∀ file : SourceFile, (p, file) ∉ Analyzer.byPath files) :
    (present.after files removed)[p]? =
      if p ∈ removed.map FilePath.normalize then none else present[p]? := by
  have hnone : files.reverse.find? (FilePath.normalize ·.path == p) = none := by
    rw [Option.eq_none_iff_forall_ne_some]
    exact fun file hfile => h file (Analyzer.mem_byPath_iff.mpr hfile)
  rw [Files.after, getElem?_insertAll _ (fun f : SourceFile => FilePath.normalize f.path), hnone,
    Option.none_or, getElem?_eraseAll]

theorem Files.getElem?_after_empty :
    (Files.after ∅ files [])[p]? = some file ↔ (p, file) ∈ Analyzer.byPath files := by
  rw [Analyzer.mem_byPath_iff, Files.after,
    getElem?_insertAll _ (fun f : SourceFile => FilePath.normalize f.path), map_nil,
    foldl_nil, ExtTreeMap.getElem?_empty, Option.or_none]

/-! ### Runs -/

namespace Analyzer

/-- **What is assumed of the files that are submitted in a run**: findings are of their paths, names
are spelled as usual, versions of files have keys of their own, and identities are not mistaken for
one another. -/
structure Proper (a : Analyzer κ) (known : String → SourceFile → Prop) : Prop where
  path : ∀ (p : String) (e : Extracted κ), a.Origin known p e → e.findings.path = p
  regular : ∀ (p : String) (e : Extracted κ), a.Origin known p e →
    ∀ r ∈ e.findings.references, r.target.Regular
  key : ∀ (p q : String) (file file' : SourceFile), known p file → known q file' →
    FileKey.of p file.content = FileKey.of q file'.content → p = q ∧ file.content = file'.content
  apart : ∀ (p q : String) (d e : Extracted κ), a.Origin known p d → a.Origin known q e →
    ∀ n ∈ d.findings.nodes, n.isConcrete → ∀ r ∈ e.findings.references, ∀ probe ∈ r.target.probes,
      NodeId.Apart (n.kind, n.signature) probe

def definedBy (a : Analyzer κ) (x : String × SourceFile) : List Node :=
  (a.version? x.1 x.2).elim [] (·.findings.nodes)

def Disjoint (a : Analyzer κ) (present : Files) : Prop :=
  ∀ x ∈ present.toList, ∀ y ∈ present.toList, x.1 ≠ y.1 → ∀ n ∈ a.definedBy x,
    ∀ m ∈ a.definedBy y, n.id ≠ m.id

instance (a : Analyzer κ) (present : Files) : Decidable (a.Disjoint present) :=
  inferInstanceAs (Decidable (∀ x ∈ _, ∀ y ∈ _, _ → ∀ n ∈ _, ∀ m ∈ _, _))

variable [Confidence κ]

/-- **An update enters every file submitted as a new version**: each is admitted, of a known kind
and different from the version that is there, and none fails. -/
structure Enters (a : Analyzer κ) (present : Files) (files : List SourceFile)
    (removed : List String) : Prop where
  admitted : ∀ x ∈ byPath files, a.settings.admits x.1 = true
  claimed : ∀ x ∈ byPath files,
    (x.2.artifact <|> a.extractor.classify x.1 x.2.content).isSome = true
  differs : ∀ x ∈ byPath files, present[x.1]?.map (·.content) ≠ some x.2.content
  succeeds : ∀ summary : Summary, (a.update files removed).result = .ok summary →
    ∀ o ∈ summary.files, ∀ reason : String, o.status ≠ .failed reason

/-- An update enters its files if the contributions of both passes are sound. -/
theorem enters_of_sound {a : Analyzer κ} {present : Files} {files : List SourceFile}
    {removed : List String} (hsubmitted : ∀ x ∈ byPath files, a.settings.admits x.1 ∧
      (x.2.artifact <|> a.extractor.classify x.1 x.2.content).isSome ∧
        present[x.1]?.map (·.content) ≠ some x.2.content)
    (hfirst : ∀ e ∈ a.changedFiles (some a.store.graph) files, a.isSound (a.staged files removed) e)
    (hlast : (a.store.applyChanges (a.firstPass files removed).changed
        (a.gone files removed)).toOption.all (fun store =>
      ((dependents store.graph (a.touchedKeys files removed)
        ((a.batchOutcomes files removed).map (·.path))).filterMap
          (a.between files removed store).cached?).all (a.isSound store.graph))) :
    a.Enters present files removed := by
  refine ⟨fun x hx => (hsubmitted x hx).1, fun x hx => (hsubmitted x hx).2.1,
    fun x hx => (hsubmitted x hx).2.2, fun summary hok => ?_⟩
  obtain ⟨store, run, happly, -, -, -, -, hfiles⟩ := summary_of_update hok
  rw [happly] at hlast
  have hsound : ∀ {g : Graph κ} {e : Extracted κ}, a.isSound g e →
      (a.outcome g e).status = .applied := by
    intro g e he
    rcases status_outcome (a := a) (g := g) e with ⟨-, happlied⟩ | ⟨hfails, -⟩
    · exact happlied
    · rw [he] at hfails
      cases hfails
  intro o ho reason
  rw [hfiles, batchOutcomes, mem_append, mem_append, mem_append,
    mem_append] at ho
  rcases ho with (((ho | ho) | ho) | ho) | ho
  · obtain ⟨x, -, hprepare⟩ := mem_skipped.mp ho
    obtain ⟨-, ⟨⟨reason', hskipped⟩, -⟩ | ⟨hunchanged, -⟩⟩ := prepare_eq_inr hprepare
    · rw [hskipped]
      simp
    · rw [hunchanged]
      simp
  · obtain ⟨e, -, rfl⟩ := mem_map.mp ho
    simp [unchangedOutcome]
  · obtain ⟨e, he, rfl⟩ := mem_map.mp ho
    rw [hsound (hfirst e he)]
    simp
  · obtain ⟨p, -, rfl⟩ := mem_map.mp ho
    simp
  · obtain ⟨e, he, rfl⟩ := outcome_of_secondPass ho
    have happlied : ((a.between files removed store).outcome store.graph e).status = .applied :=
      hsound (all_eq_true.mp hlast e he)
    show (reresolved ((a.between files removed store).outcome store.graph e)).status ≠ _
    rw [reresolved, if_pos happlied]
    simp

/-- The runs of updates that enter every file submitted, with the files that are there.  After each
update no two files define the same identity. -/
inductive SteadyRun (settings : Settings κ) (extractor : Extractor κ)
    (known : String → SourceFile → Prop) : Analyzer κ → Files → Prop where
  | start : SteadyRun settings extractor known (initial settings extractor) ∅
  | update {a : Analyzer κ} {present : Files} {files : List SourceFile} {removed : List String}
    (hrun : SteadyRun settings extractor known a present)
    (hknown : ∀ x ∈ byPath files, known x.1 x.2) (henters : a.Enters present files removed)
    (hdisjoint : a.Disjoint (present.after files removed)) :
    SteadyRun settings extractor known (a.update files removed).analyzer
      (present.after files removed)

/-! ### One update -/

/-- **All contributions are fresh**, and they are those of the files that are there. -/
structure Current (a : Analyzer κ) (known : String → SourceFile → Prop) (owner : FileKey → String)
    (t : Contributions κ) (present : Files) : Prop where
  proper : a.Proper known
  kept : a.Kept known owner t
  submitted : ∀ (p : String) (file : SourceFile), present[p]? = some file → known p file
  cached : ∀ p : String, a.cache[p]? = present[p]?.bind (a.version? p)
  disjoint : a.Disjoint present
  fresh : ∀ (p : String) (e : Extracted κ), a.cache[p]? = some e →
    t[p]? = some (a.contribution a.store.graph e)

variable {a : Analyzer κ} {known : String → SourceFile → Prop} {owner : FileKey → String}
  {t : Contributions κ} {present : Files} {files : List SourceFile} {removed : List String}

theorem Kept.coherent_of_disjoint (h : a.Kept known owner t)
    (hcached : ∀ p, a.cache[p]? = present[p]?.bind (a.version? p))
    (hdisjoint : a.Disjoint present) : t.Coherent := by
  intro p q c d id n m hc hd hn hm
  by_cases hpq : p = q
  · subst hpq
    obtain rfl := Option.some.inj (hc.symm.trans hd)
    obtain rfl := Option.some.inj (hn.symm.trans hm)
    rfl
  · obtain ⟨e, g, he, rfl, -⟩ := h.exists_cached hc
    obtain ⟨e', g', he', rfl, -⟩ := h.exists_cached hd
    rw [hcached] at he he'
    obtain ⟨file, hfile, hversion⟩ := Option.bind_eq_some_iff.mp he
    obtain ⟨file', hfile', hversion'⟩ := Option.bind_eq_some_iff.mp he'
    refine absurd ?_ (hdisjoint (p, file) (ExtTreeMap.mem_toList_iff_getElem?_eq_some.mpr hfile)
      (q, file') (ExtTreeMap.mem_toList_iff_getElem?_eq_some.mpr hfile') hpq n ?_ m ?_)
    · rw [Contribution.id_of_node? hn, Contribution.id_of_node? hm]
    · rw [definedBy, hversion]
      exact Contribution.mem_of_node? hn
    · rw [definedBy, hversion']
      exact Contribution.mem_of_node? hm

theorem Kept.apartFrom (h : a.Kept known owner t) (hproper : a.Proper known) {p : String}
    {e : Extracted κ} (he : a.Origin known p e) :
    ∀ r ∈ e.findings.references, ∀ probe ∈ r.target.probes, a.store.graph.ApartFrom probe := by
  intro r hr probe hprobe id n hn hconcrete
  rw [h.holds.shows.nodes] at hn
  obtain ⟨q, c, hc, hcn⟩ :=
    Contributions.exists_definer_of_concrete h.identified_contributions hn hconcrete
  obtain ⟨d, g, -, rfl, hd⟩ := h.exists_cached hc
  exact hproper.apart q p d e hd he n (Contribution.mem_of_node? hcn) hconcrete r hr probe hprobe

namespace Current

section

variable (h : a.Current known owner t present) (hknown : ∀ x ∈ byPath files, known x.1 x.2)

include h hknown

theorem version_of_enters (henters : a.Enters present files removed)
    {x : String × SourceFile} (hx : x ∈ byPath files) : ∃ e, a.version? x.1 x.2 = some e ∧
      isHeld (some a.store.graph) x.1 e.key = false := by
  obtain ⟨artifact, hartifact⟩ := Option.isSome_iff_exists.mp (henters.claimed x hx)
  refine ⟨⟨FileKey.of x.1 x.2.content, a.extractor.findings artifact x.1 x.2.content⟩, ?_, ?_⟩
  · rw [version?, if_pos (henters.admitted x hx), hartifact]
    rfl
  · rw [← Bool.not_eq_true]
    intro hheld
    have hfile : a.store.graph.files[x.1]? = some (FileKey.of x.1 x.2.content) := by
      simpa [isHeld, Graph.fileKey?] using hheld
    rw [h.kept.holds.shows.files, Option.map_eq_some_iff] at hfile
    obtain ⟨c, hc, hkey⟩ := hfile
    obtain ⟨e, g, he, rfl, -⟩ := h.kept.exists_cached hc
    rw [h.cached] at he
    obtain ⟨old, hold, hversion⟩ := Option.bind_eq_some_iff.mp he
    -- the version that is held would have the same content
    have hsame : FileKey.of x.1 old.content = FileKey.of x.1 x.2.content := by
      rw [← key_of_version? hversion]
      exact hkey
    refine henters.differs x hx ?_
    rw [hold, Option.map_some,
      (h.proper.key x.1 x.1 old x.2 (h.submitted x.1 old hold) (hknown x hx) hsame).2]

theorem path_of_changed {e : Extracted κ} (he : e ∈ a.changedFiles (some a.store.graph) files) :
    ∃ file, (e.findings.path, file) ∈ byPath files ∧ a.version? e.findings.path file = some e := by
  obtain ⟨x, hx, hversion, -⟩ := mem_changedFiles.mp he
  rw [h.proper.path x.1 e ⟨x.2, hknown x hx, hversion⟩]
  exact ⟨x.2, hx, hversion⟩

/-- **After the first pass the findings are those of the files that are there then.** -/
theorem cached_between (henters : a.Enters present files removed)
    (hall : ∀ e ∈ a.changedFiles (some a.store.graph) files,
      a.isSound (a.staged files removed) e) (store : Store κ) (p : String) :
    (a.between files removed store).cache[p]? =
      (present.after files removed)[p]?.bind (a.version? p) := by
  have hfiles : (a.firstPass files removed).files = a.changedFiles (some a.store.graph) files :=
    filter_eq_self.mpr hall
  rw [h.kept.cache_between, hfiles]
  by_cases hsubmitted : ∃ file, (p, file) ∈ byPath files
  · obtain ⟨file, hfile⟩ := hsubmitted
    obtain ⟨e, hversion, hheld⟩ := h.version_of_enters hknown henters hfile
    have hpath : e.findings.path = p := h.proper.path p e ⟨file, hknown _ hfile, hversion⟩
    have hmem : e ∈ a.changedFiles (some a.store.graph) files :=
      mem_changedFiles.mpr ⟨(p, file), hfile, hversion, hheld⟩
    have hunique : ∀ e' ∈ a.changedFiles (some a.store.graph) files,
        e'.findings.path = e.findings.path → e' = e := by
      intro e' he' hsame
      obtain ⟨file', hfile', hversion'⟩ := h.path_of_changed hknown he'
      rw [hsame, hpath] at hfile' hversion'
      rw [eq_of_mem_byPath hfile' hfile, hversion] at hversion'
      exact (Option.some.inj hversion').symm
    have hfind := find?_path_eq_some hmem hunique
    rw [hpath] at hfind
    rw [hfind, Option.some_or, Files.getElem?_after_of_submitted hfile, Option.bind_some, hversion]
  · rw [not_exists] at hsubmitted
    have hother : ∀ e ∈ a.changedFiles (some a.store.graph) files, e.findings.path ≠ p := by
      intro e he hpath
      obtain ⟨file, hfile, -⟩ := h.path_of_changed hknown he
      rw [hpath] at hfile
      exact hsubmitted file hfile
    rw [find?_path_eq_none hother, Option.none_or,
      Files.getElem?_after_of_not_submitted hsubmitted, h.cached p]
    by_cases hremoved : p ∈ removed.map FilePath.normalize
    · -- a removed path that the graph does not know has no findings either
      rw [if_pos hremoved]
      split
      · rfl
      · next hgone =>
        have hunknown : a.store.graph.files[p]? = none := by
          by_contra hsome
          exact hgone (mem_gone.mpr ⟨hremoved, hsubmitted, Option.isSome_iff_ne_none.mpr hsome⟩)
        rw [h.kept.holds.shows.files, Option.map_eq_none_iff] at hunknown
        rw [← h.cached p]
        rcases h.kept.paired p with ⟨-, hnone⟩ | ⟨e, g, -, hc, -, -⟩
        · exact hnone
        · rw [hunknown] at hc
          cases hc
    · rw [if_neg hremoved, if_neg fun hgone => hremoved (mem_gone.mp hgone).1]

theorem submitted_after (p : String) (file : SourceFile)
    (hfile : (present.after files removed)[p]? = some file) : known p file := by
  by_cases hsubmitted : ∃ f, (p, f) ∈ byPath files
  · obtain ⟨f, hf⟩ := hsubmitted
    rw [Files.getElem?_after_of_submitted hf] at hfile
    exact Option.some.inj hfile ▸ hknown (p, f) hf
  · rw [not_exists] at hsubmitted
    rw [Files.getElem?_after_of_not_submitted hsubmitted] at hfile
    split at hfile
    · cases hfile
    · exact h.submitted p file hfile

theorem status_of_enters (henters : a.Enters present files removed)
    {o : FileOutcome} (ho : o ∈ a.batchOutcomes files removed) :
    ¬(o.status = .unchanged ∨ ∃ reason, o.status = .skipped reason) := by
  rw [batchOutcomes, h.kept.refreshedFiles_eq_nil, map_nil, append_nil, mem_append,
    mem_append] at ho
  rcases ho with (ho | ho) | ho
  · obtain ⟨x, hx, hprepare⟩ := mem_skipped.mp ho
    obtain ⟨e, hversion, hheld⟩ := h.version_of_enters hknown henters hx
    obtain ⟨q, hq, -⟩ := prepare_of_not_held hversion hheld
    rw [hq] at hprepare
    cases hprepare
  · obtain ⟨e, he, rfl⟩ := mem_map.mp ho
    rcases status_outcome (a := a) (g := a.staged files removed) e with
      ⟨-, happlied⟩ | ⟨-, reason, hfailed⟩
    · rw [happlied]
      simp
    · rw [hfailed]
      simp
  · obtain ⟨q, -, rfl⟩ := mem_map.mp ho
    simp

/-- **One update that enters every file submitted leaves all contributions fresh.** -/
theorem update (henters : a.Enters present files removed)
    (hdisjoint : a.Disjoint (present.after files removed)) : ∃ t',
      (a.update files removed).analyzer.Current known owner t' (present.after files removed) := by
  rcases update_cases a files removed .never with ⟨store, run, happly, -, hupdate⟩ | ⟨-, hset⟩
  · obtain ⟨t', hkept, hspec⟩ := h.kept.lastPass_spec hknown happly .never run rfl
    have hsucceeds := henters.succeeds
    rw [hupdate] at hsucceeds ⊢
    have hnotFailed : ∀ o ∈ a.batchOutcomes files removed ++
        (a.lastPass files removed .never store run).outcomes, ∀ reason,
          o.status ≠ .failed reason := fun o ho =>
      hsucceeds _ rfl o (mem_mergeSort.mpr ho)
    have hall : ∀ e ∈ a.changedFiles (some a.store.graph) files,
        a.isSound (a.staged files removed) e := by
      intro e he
      by_contra hsound
      obtain ⟨o, ho, reason, hfailed⟩ := Kept.exists_failed he (Bool.not_eq_true _ ▸ hsound)
      exact hnotFailed o (mem_append_left _ ho) reason hfailed
    have hcached := h.cached_between hknown henters hall store
    have hproper : { a.between files removed store with
        store := (a.lastPass files removed .never store run).store }.Proper known :=
      ⟨h.proper.path, h.proper.regular, h.proper.key, h.proper.apart⟩
    refine ⟨t', hproper, hkept, h.submitted_after hknown, hcached, hdisjoint, fun p e he => ?_⟩
    have horigin : a.Origin known p e := hkept.origin_of_cache he
    rcases hspec (h.kept.coherent_of_disjoint h.cached h.disjoint)
        (hkept.coherent_of_disjoint hcached hdisjoint) p e he
        (fun r hr => (h.proper.regular p e horigin r hr).covered)
        (fun r hr probe hprobe => ⟨h.kept.apartFrom h.proper horigin r hr probe hprobe,
          hkept.apartFrom hproper horigin r hr probe hprobe⟩) with
      hfresh | ⟨-, m, hset⟩ | ⟨⟨o, ho, -, hleft⟩, -⟩ | ⟨o, ho, reason, hfailed⟩ | ⟨hbefore, hstale⟩
    · exact hfresh
    · exact absurd hset CancelToken.not_isSet_never
    · exact absurd hleft (h.status_of_enters hknown henters ho)
    · exact absurd hfailed (hnotFailed o ho reason)
    · exact absurd (h.fresh p e hbefore) hstale
  · exact absurd hset CancelToken.not_isSet_never

end

end Current

/-! ### Whole runs -/

namespace SteadyRun

variable {settings : Settings κ} {extractor : Extractor κ}

theorem settings_eq (h : SteadyRun settings extractor known a present) :
    a.settings = settings ∧ a.extractor = extractor := by
  induction h with
  | start => exact ⟨rfl, rfl⟩
  | @update a present files removed _ _ _ _ ih =>
    rcases update_cases a files removed .never with ⟨store, run, -, -, hupdate⟩ | ⟨-, hset⟩
    · rw [hupdate]
      exact ih
    · exact absurd hset CancelToken.not_isSet_never

/-- **After a run that enters every file submitted all contributions are fresh.** -/
theorem current (h : SteadyRun settings extractor known a present)
    (hproper : (initial settings extractor).Proper known)
    (hnames : (initial settings extractor).Names known owner) :
    ∃ t, a.Current known owner t present := by
  induction h with
  | start =>
    refine ⟨∅, hproper, kept_initial hnames, fun p file hfile => ?_, fun p => ?_,
      fun x hx => ?_, fun p e he => ?_⟩
    · rw [ExtTreeMap.getElem?_empty] at hfile
      cases hfile
    · rw [ExtTreeMap.getElem?_empty]
      exact ExtTreeMap.getElem?_empty
    · rw [ExtTreeMap.toList_eq_nil_iff.mpr rfl] at hx
      cases hx
    · have he : (∅ : ExtTreeMap String (Extracted κ) compare)[p]? = some e := he
      rw [ExtTreeMap.getElem?_empty] at he
      cases he
  | update _ hknown henters hdisjoint ih =>
    obtain ⟨t, ht⟩ := ih
    exact ht.update hknown henters hdisjoint

end SteadyRun

/-! ### The rebuild -/

namespace Current

variable {final : List SourceFile}

theorem mem_rebuiltFiles_iff (h : a.Current known owner t present)
    (hfinal : Files.after ∅ final [] = present) {e : Extracted κ} :
    e ∈ (initial a.settings a.extractor).rebuiltFiles final ↔
      a.cache[e.findings.path]? = some e := by
  have hcache : ∀ p, a.cache[p]? = some e ↔
      ∃ file, (p, file) ∈ byPath final ∧ a.version? p file = some e := by
    intro p
    rw [h.cached, ← hfinal, Option.bind_eq_some_iff]
    simp only [Files.getElem?_after_empty]
  rw [mem_rebuiltFiles]
  constructor
  · rintro ⟨x, hx, hversion⟩
    have he := (hcache x.1).mpr ⟨x.2, hx, hversion⟩
    rw [h.kept.path_of_cache he]
    exact he
  · intro he
    obtain ⟨file, hfile, hversion⟩ := (hcache _).mp he
    exact ⟨_, hfile, hversion⟩

theorem find?_rebuiltFiles (h : a.Current known owner t present)
    (hfinal : Files.after ∅ final [] = present) (p : String) :
    ((initial a.settings a.extractor).rebuiltFiles final).reverse.find? (·.findings.path == p) =
      a.cache[p]? := by
  have hmem := fun e => h.mem_rebuiltFiles_iff hfinal (e := e)
  cases he : a.cache[p]? with
  | none =>
    refine find?_path_eq_none fun e hin hpath => ?_
    rw [hmem, hpath, he] at hin
    cases hin
  | some e =>
    have hpath := h.kept.path_of_cache he
    rw [← hpath] at he ⊢
    refine find?_path_eq_some ((hmem e).mpr he) fun e' hin hsame => ?_
    rw [hmem, hsame, he] at hin
    exact (Option.some.inj hin).symm

/-- The graph that a rebuild of the files that are there resolves them against. -/
def stagedAlone (a : Analyzer κ) (final : List SourceFile) : Graph κ :=
  (initial a.settings a.extractor).store.stageAlone
    (((initial a.settings a.extractor).rebuiltFiles final).map definitions)

section

variable (h : a.Current known owner t present) (hfinal : Files.after ∅ final [] = present)
  (hlexical : a.settings.resolver.tieBreak = .lexical)

include h hfinal hlexical

/-- **A rebuild stages the definitions that the graph has.** -/
theorem stagedAlone_alike : (stagedAlone a final).Alike a.settings.resolver.tieBreak a.store.graph ∧
      (stagedAlone a final).Sound := by
  obtain ⟨es, hes⟩ : ∃ es, es = (initial a.settings a.extractor).rebuiltFiles final := ⟨_, rfl⟩
  have hstaged : stagedAlone a final = (((Ledger.empty 0 : Ledger κ).commit .empty
      (es.map stagedPart) []).2.getD .empty).inheritIntroduced .empty := by
    rw [stagedAlone, Store.stageAlone, map_map, hes]
    rfl
  have hcache : ∀ e ∈ es, a.cache[e.findings.path]? = some e := by
    rw [hes]
    exact fun e he => (h.mem_rebuiltFiles_iff hfinal).mp he
  obtain ⟨hshows, hsound, hidentified⟩ := stage_spec (Ledger.records_empty 0)
    Contributions.keyed_empty (Graph.shows_empty 0) (Ledger.each_empty 0)
    (Graph.sound_empty 0)
    (fun e he => h.kept.names.owner_key (h.kept.origin_of_cache (hcache e he)))
    (fun e he => (h.kept.identified_contributions _ _ (h.fresh _ e (hcache e he))).nodes) []
  have hdefinitions : (Contributions.after ∅ (es.map stagedPart) []).SameDefinitions t := by
    intro p
    rw [nodes_after_map (fun _ => rfl) fun _ => rfl, hes, h.find?_rebuiltFiles hfinal,
      if_neg not_mem_nil, ExtTreeMap.getElem?_empty, Option.map_none, Option.or_none]
    rcases h.kept.paired p with ⟨hnone, hcached⟩ | ⟨e, g, he, hc, -, -⟩
    · rw [hnone, hcached]
      rfl
    · rw [he, hc]
      rfl
  rw [hstaged]
  refine ⟨⟨fun id => ?_, fun hrecency => ?_⟩, hsound⟩
  · exact Graph.sameAt_of_defining_eq (Store.inheritIntroduced_shows hshows) h.kept.holds.shows
      hidentified h.kept.identified_contributions (hdefinitions.defining_eq id)
  · rw [hlexical] at hrecency
    cases hrecency

/-- **A rebuild resolves the files that are there to the contributions that are there.** -/
theorem after_rebuiltPass :
    Contributions.after ∅ ((initial a.settings a.extractor).rebuiltPass final).changed [] = t := by
  obtain ⟨halike, hsound⟩ := h.stagedAlone_alike hfinal hlexical
  have hsame : ∀ e,
      a.contribution (stagedAlone a final) e = a.contribution a.store.graph e := fun e =>
    (ResolverOptions.resolve_eq_of_alike halike hsound h.kept.identified.graph e.key
      e.findings).symm
  have hall : ∀ e ∈ (initial a.settings a.extractor).rebuiltFiles final,
      (initial a.settings a.extractor).isSound (stagedAlone a final) e := by
    intro e he
    have hcached := (h.mem_rebuiltFiles_iff hfinal).mp he
    have hfresh := h.fresh _ e hcached
    rcases h.kept.paired e.findings.path with ⟨hnone, -⟩ | ⟨e', g, he', hc, -, hc'⟩
    · rw [hfresh] at hnone
      cases hnone
    · rw [← Option.some.inj (hfresh.symm.trans hc), ← hsame] at hc'
      exact isSound_iff.mpr hc'
  have hfiles : ((initial a.settings a.extractor).rebuiltPass final).files =
      (initial a.settings a.extractor).rebuiltFiles final := filter_eq_self.mpr hall
  apply ExtTreeMap.ext_getElem?
  intro p
  have hlookup : (Contributions.after ∅
      ((initial a.settings a.extractor).rebuiltPass final).changed [])[p]? =
        ((a.cache[p]?).map (a.contribution (stagedAlone a final))).or none := by
    rw [← h.find?_rebuiltFiles hfinal, ← hfiles]
    exact getElem?_after_resolved ∅ [] _ p
  rw [hlookup, Option.or_none]
  cases he : a.cache[p]? with
  | none =>
    rcases h.kept.paired p with ⟨hnone, -⟩ | ⟨e, g, he', -⟩
    · rw [hnone]
      rfl
    · rw [he] at he'
      cases he'
  | some e => rw [h.fresh p e he, Option.map_some, hsame]

end

end Current

end Analyzer

/-- **A run of updates makes the graph of a rebuild.**  Take any run of updates that are never
cancelled, on a new analyzer that breaks ties by names.  If every update enters all files submitted
as new versions and no two files define the same identity at the same time, then the graph has the
nodes, the edges and the provenance that a rebuild of the files that are there makes of them. -/
theorem sameContent_rebuild_of_steadyRun [Confidence κ] [DecidableEq κ] {settings : Settings κ}
    {extractor : Extractor κ} {known : String → SourceFile → Prop} {a : Analyzer κ}
    {present : Files} {final : List SourceFile}
    (hlexical : settings.resolver.tieBreak = .lexical)
    (hproper : (Analyzer.initial settings extractor).Proper known)
    (hrun : Analyzer.SteadyRun settings extractor known a present)
    (hfinal : Files.after ∅ final [] = present) :
    ∃ summary : Summary,
      ((Analyzer.initial settings extractor).rebuild final).result = .ok summary ∧
        a.store.graph.sameContent
          ((Analyzer.initial settings extractor).rebuild final).analyzer.store.graph = true := by
  obtain ⟨owner, hnames⟩ := Analyzer.exists_names hproper.path
    fun p q file file' hp hq hkey => (hproper.key p q file file' hp hq hkey).1
  obtain ⟨t, ht⟩ := hrun.current hproper hnames
  obtain ⟨rfl, rfl⟩ := hrun.settings_eq
  have hknown : ∀ x ∈ Analyzer.byPath final, known x.1 x.2 := fun x hx =>
    ht.submitted x.1 x.2 (hfinal ▸ Files.getElem?_after_empty.mpr hx)
  rcases Analyzer.rebuild_cases (Analyzer.initial a.settings a.extractor) final .never with
    ⟨store, run, hrebuild, heq⟩ | ⟨-, hset⟩
  · have hkept := (Analyzer.kept_initial hnames).rebuild hknown hrebuild
    rw [ht.after_rebuiltPass hfinal hlexical] at hkept
    obtain ⟨hnodes, hedges, -, -, hprovenance⟩ := ht.kept.holds.shows.unique hkept.holds.shows
    rw [heq]
    refine ⟨_, rfl, ?_⟩
    rw [Graph.sameContent, decide_eq_true_iff]
    exact ⟨hnodes, hedges, hprovenance⟩
  · exact absurd hset CancelToken.not_isSet_never

/-! ### The reader and its table -/

def lexicalSettings : Settings Rat :=
  { Settings.standard with resolver := { ResolverOptions.standard with tieBreak := .lexical } }

/-- The new analyzer that breaks ties so. -/
def lexicalStart : Analyzer Rat := .initial lexicalSettings (.standard .standard)

def lexicalReaderSeen : Analyzer Rat := (lexicalStart.update [reader] []).analyzer

abbrev TableFile (p : String) (file : SourceFile) : Prop := (p, file) ∈ tableFiles

theorem tableFiles_proper : lexicalStart.Proper TableFile := by
  have hpath : ∀ x ∈ tableFiles,
      (lexicalStart.version? x.1 x.2).all (·.findings.path == x.1) := by
    decide +kernel
  have hregular : ∀ x ∈ tableFiles, (lexicalStart.version? x.1 x.2).all (fun e =>
      ∀ r ∈ e.findings.references, r.target.Regular) := by
    decide +kernel
  have hkey : ∀ x ∈ tableFiles, ∀ y ∈ tableFiles,
      FileKey.of x.1 x.2.content = FileKey.of y.1 y.2.content →
        x.1 = y.1 ∧ x.2.content = y.2.content := by
    decide +kernel
  have hapart : ∀ x ∈ tableFiles, ∀ y ∈ tableFiles, (lexicalStart.version? x.1 x.2).all (fun d =>
      (lexicalStart.version? y.1 y.2).all (fun e => ∀ n ∈ d.findings.nodes, n.isConcrete →
        ∀ r ∈ e.findings.references, ∀ probe ∈ r.target.probes,
          NodeId.Apart (n.kind, n.signature) probe)) := by
    decide +kernel
  refine ⟨?_, ?_, fun p q file file' h h' => hkey (p, file) h (q, file') h', ?_⟩
  · rintro p e ⟨file, hfile, hversion⟩
    have := hpath (p, file) hfile
    rw [hversion] at this
    simpa using this
  · rintro p e ⟨file, hfile, hversion⟩
    have := hregular (p, file) hfile
    rw [hversion] at this
    simpa using this
  · rintro p q d e ⟨file, hfile, hversion⟩ ⟨file', hfile', hversion'⟩
    have := hapart (p, file) hfile (q, file') hfile'
    rw [hversion, Option.all_some, hversion', Option.all_some] at this
    exact of_decide_eq_true this

theorem lexical_steadyRun : Analyzer.SteadyRun lexicalSettings (.standard .standard) TableFile
    (lexicalReaderSeen.update [schema] []).analyzer
    ((Files.after ∅ [reader] []).after [schema] []) := by
  have hfirst : lexicalStart.Enters ∅ [reader] [] :=
    Analyzer.enters_of_sound (by decide +kernel) (by decide +kernel) (by decide +kernel)
  have hsecond : lexicalReaderSeen.Enters (Files.after ∅ [reader] []) [schema] [] :=
    Analyzer.enters_of_sound (by decide +kernel) (by decide +kernel) (by decide +kernel)
  exact .update (.update .start (by decide +kernel) hfirst (by decide +kernel)) (by decide +kernel)
    hsecond (by decide +kernel)

/-- The reader arrives first and the table second, which has the reader resolved again: the graph is
the one of a rebuild of both. -/
theorem reader_then_table_sameContent_rebuild :
    ∃ summary : Summary, (lexicalStart.rebuild [schema, reader]).result = .ok summary ∧
      (lexicalReaderSeen.update [schema] []).analyzer.store.graph.sameContent
        (lexicalStart.rebuild [schema, reader]).analyzer.store.graph = true :=
  sameContent_rebuild_of_steadyRun rfl tableFiles_proper lexical_steadyRun (by decide +kernel)

end AppAtlas
