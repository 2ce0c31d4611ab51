import AppAtlas.Proofs.Analysis.Passes
import AppAtlas.Proofs.Resolve.Definitions

/-!
# What an analyzer keeps

An analyzer keeps for each path a contribution in its store and findings in its cache.  As long as
it is filled by updates and rebuilds only, the two go together: each contribution is what its
findings were resolved to at some time, and the findings are those of a version that was submitted.

* `Analyzer.version?`: the version of a submitted file, as far as it is analysed at all.
* `Analyzer.Paired.enter`: entering resolved files keeps contributions and findings together.
* `Analyzer.Kept.between`, `Analyzer.Kept.secondPass`, `Analyzer.Kept.rebuild`: so does each pass.
-/

namespace AppAtlas

open List Std OrderedMap

variable {κ : Type}

namespace Analyzer

/-! ### Submitted files -/

/-- The version of a file submitted for a path: its key and its findings, if the path is admitted
and the kind of the file is known. -/
def version? (a : Analyzer κ) (path : String) (file : SourceFile) : Option (Extracted κ) :=
  if a.settings.admits path then
    (file.artifact <|> a.extractor.classify path file.content).map fun artifact =>
      ⟨FileKey.of path file.content, a.extractor.findings artifact path file.content⟩
  else none

def isHeld (base : Option (Graph κ)) (path : String) (key : FileKey) : Bool :=
  base.any fun g => g.fileKey? path == some key

variable {a : Analyzer κ} {base : Option (Graph κ)} {path : String} {file : SourceFile}
  {files : List SourceFile} {e : Extracted κ}

theorem prepare_eq_inl {q : Prepared} (h : a.prepare base path file = .inl q) :
    ∃ e, a.version? path file = some e ∧ a.extract q = (e, isHeld base path e.key) ∧
      (isHeld base path e.key && (a.cache[path]?).any (·.key == e.key)) = false := by
  rw [prepare] at h
  split at h
  · cases h
  · next hadmits =>
    split at h
    · cases h
    · next artifact hartifact =>
      dsimp only at h
      split at h
      · cases h
      · next hcached =>
        obtain rfl := Sum.inl.inj h
        rw [Bool.not_eq_true] at hcached
        refine ⟨⟨FileKey.of path file.content, a.extractor.findings artifact path file.content⟩,
          ?_, rfl, hcached⟩
        rw [version?, if_pos (by simpa using hadmits), hartifact]
        rfl

theorem prepare_eq_inr {o : FileOutcome} (h : a.prepare base path file = .inr o) : o.path = path ∧
      ((∃ reason, o.status = .skipped reason) ∧ a.version? path file = none ∨
        o.status = .unchanged ∧ ∃ e, a.version? path file = some e ∧ isHeld base path e.key) := by
  rw [prepare] at h
  split at h
  · next hadmits =>
    obtain rfl := Sum.inr.inj h
    refine ⟨rfl, .inl ⟨⟨_, rfl⟩, ?_⟩⟩
    rw [version?, if_neg (by simpa using hadmits)]
  · next hadmits =>
    split at h
    · next hartifact =>
      obtain rfl := Sum.inr.inj h
      refine ⟨rfl, .inl ⟨⟨_, rfl⟩, ?_⟩⟩
      rw [version?, hartifact, Option.map_none, ite_self]
    · next artifact hartifact =>
      dsimp only at h
      split at h
      · next hcached =>
        obtain rfl := Sum.inr.inj h
        rw [Bool.and_eq_true] at hcached
        refine ⟨rfl, .inr ⟨rfl, ⟨FileKey.of path file.content,
          a.extractor.findings artifact path file.content⟩, ?_, hcached.1⟩⟩
        rw [version?, if_pos (by simpa using hadmits), hartifact]
        rfl
      · cases h

theorem mem_prepared {q : Prepared} :
    q ∈ (a.classify base files).1 ↔ ∃ x ∈ byPath files, a.prepare base x.1 x.2 = .inl q := by
  rw [classify, filterMap_map, mem_filterMap]
  exact exists_congr fun x => and_congr_right fun _ => Sum.getLeft?_eq_some_iff

theorem mem_skipped {o : FileOutcome} :
    o ∈ (a.classify base files).2 ↔ ∃ x ∈ byPath files, a.prepare base x.1 x.2 = .inr o := by
  rw [classify]
  dsimp only
  rw [filterMap_map, mem_filterMap]
  exact exists_congr fun x => and_congr_right fun _ => Sum.getRight?_eq_some_iff

theorem prepare_of_not_held {x : String × SourceFile} (hversion : a.version? x.1 x.2 = some e)
    (hheld : isHeld base x.1 e.key = false) :
    ∃ q, a.prepare base x.1 x.2 = .inl q ∧ a.extract q = (e, false) := by
  cases hprepare : a.prepare base x.1 x.2 with
  | inl q =>
    obtain ⟨e', he', hextract, -⟩ := prepare_eq_inl hprepare
    obtain rfl := Option.some.inj (hversion.symm.trans he')
    exact ⟨q, rfl, by rw [hextract, hheld]⟩
  | inr o =>
    obtain ⟨-, ⟨-, hnone⟩ | ⟨-, e', he', hheld'⟩⟩ := prepare_eq_inr hprepare
    · rw [hversion] at hnone
      cases hnone
    · obtain rfl := Option.some.inj (hversion.symm.trans he')
      rw [hheld] at hheld'
      cases hheld'

/-- **The files that are resolved are those whose version the graph does not hold.** -/
theorem mem_changedFiles : e ∈ a.changedFiles base files ↔
    ∃ x ∈ byPath files, a.version? x.1 x.2 = some e ∧ isHeld base x.1 e.key = false := by
  simp only [changedFiles, mem_map, mem_filter, mem_prepared, Bool.not_eq_true']
  constructor
  · rintro ⟨_, ⟨⟨q, ⟨x, hx, hprepare⟩, rfl⟩, hheld⟩, rfl⟩
    obtain ⟨e, hversion, hextract, -⟩ := prepare_eq_inl hprepare
    rw [hextract] at hheld ⊢
    exact ⟨x, hx, hversion, hheld⟩
  · rintro ⟨x, hx, hversion, hheld⟩
    obtain ⟨q, hprepare, hextract⟩ := prepare_of_not_held hversion hheld
    exact ⟨(e, false), ⟨⟨q, ⟨x, hx, hprepare⟩, hextract⟩, rfl⟩, rfl⟩

theorem of_mem_refreshedFiles (h : e ∈ a.refreshedFiles base files) :
    ∃ x ∈ byPath files, a.version? x.1 x.2 = some e ∧ isHeld base x.1 e.key ∧
      (a.cache[x.1]?).any (·.key == e.key) = false := by
  simp only [refreshedFiles, mem_map, mem_filter, mem_prepared] at h
  obtain ⟨_, ⟨⟨q, ⟨x, hx, hprepare⟩, rfl⟩, hheld⟩, rfl⟩ := h
  obtain ⟨e, hversion, hextract, hcached⟩ := prepare_eq_inl hprepare
  rw [hextract] at hheld ⊢
  have hheld : isHeld base x.1 e.key := hheld
  rw [hheld, Bool.true_and] at hcached
  exact ⟨x, hx, hversion, hheld, hcached⟩

theorem mem_rebuiltFiles : e ∈ a.rebuiltFiles files ↔
    ∃ x ∈ byPath files, a.version? x.1 x.2 = some e := by
  simp only [rebuiltFiles, mem_map, mem_prepared]
  constructor
  · rintro ⟨_, ⟨q, ⟨x, hx, hprepare⟩, rfl⟩, rfl⟩
    obtain ⟨e, hversion, hextract, -⟩ := prepare_eq_inl hprepare
    rw [hextract]
    exact ⟨x, hx, hversion⟩
  · rintro ⟨x, hx, hversion⟩
    have hheld : isHeld (none : Option (Graph κ)) x.1 e.key = false := rfl
    obtain ⟨q, hprepare, hextract⟩ := prepare_of_not_held hversion hheld
    exact ⟨(e, false), ⟨q, ⟨x, hx, hprepare⟩, hextract⟩, rfl⟩

/-! ### Files by path -/

theorem mem_byPath {p : String} : (p, file) ∈ byPath files ↔
      (ExtTreeMap.ofList (files.map fun f => (FilePath.normalize f.path, f)) compare)[p]? =
        some file := by
  rw [byPath, ExtTreeMap.mem_toList_iff_getElem?_eq_some]

theorem eq_of_mem_byPath {p : String} {f f' : SourceFile} (h : (p, f) ∈ byPath files)
    (h' : (p, f') ∈ byPath files) : f = f' :=
  Option.some.inj ((mem_byPath.mp h).symm.trans (mem_byPath.mp h'))

theorem exists_mem_byPath_iff {p : String} : (∃ f, (p, f) ∈ byPath files) ↔
      p ∈ files.map fun f => FilePath.normalize f.path := by
  simp only [mem_byPath, ← Option.isSome_iff_exists, ← ExtTreeMap.contains_eq_isSome_getElem?]
  rw [ExtTreeMap.contains_ofList, contains_iff_mem, map_map]
  rfl

theorem mem_gone {p : String} {removed : List String} :
    p ∈ a.gone files removed ↔ p ∈ removed.map FilePath.normalize ∧
      (∀ f, (p, f) ∉ byPath files) ∧ (a.store.graph.files[p]?).isSome := by
  rw [gone, removedPaths, mem_sortedSet, mem_filter, Bool.and_eq_true, Bool.not_eq_true',
    ← Bool.not_eq_true, contains_iff_mem, ← exists_mem_byPath_iff, not_exists]
  rfl

/-! ### Contributions and findings -/

/-- The findings are those of a version of the file at a path that was submitted. -/
def Origin (a : Analyzer κ) (known : String → SourceFile → Prop) (p : String) (e : Extracted κ) :
    Prop :=
  ∃ file : SourceFile, known p file ∧ a.version? p file = some e

theorem exists_artifact (h : a.version? path file = some e) : ∃ artifact, e =
      ⟨FileKey.of path file.content, a.extractor.findings artifact path file.content⟩ := by
  rw [version?] at h
  split at h
  · obtain ⟨artifact, -, rfl⟩ := Option.map_eq_some_iff.mp h
    exact ⟨artifact, rfl⟩
  · cases h

theorem key_of_version? (h : a.version? path file = some e) :
    e.key = FileKey.of path file.content := by
  obtain ⟨artifact, rfl⟩ := exists_artifact h
  rfl

/-- What is asked of the files that are submitted: findings are of the path they were submitted for,
and versions of files at different paths have different keys. -/
structure Names (a : Analyzer κ) (known : String → SourceFile → Prop) (owner : FileKey → String) :
    Prop where
  path : ∀ (p : String) (e : Extracted κ), a.Origin known p e → e.findings.path = p
  key : ∀ (p : String) (file : SourceFile), known p file → owner (FileKey.of p file.content) = p

variable {known : String → SourceFile → Prop} {owner : FileKey → String}

theorem Names.owner_key (h : a.Names known owner) {p : String} (he : a.Origin known p e) :
    owner e.key = e.findings.path := by
  obtain ⟨file, hknown, hversion⟩ := he
  rw [key_of_version? hversion, h.key p file hknown, h.path p e ⟨file, hknown, hversion⟩]

theorem Names.origin (h : a.Names known owner) {p : String} (he : a.Origin known p e) :
    a.Origin known e.findings.path e := by
  rw [h.path p e he]
  exact he

theorem Names.owner_changed [Confidence κ] (h : a.Names known owner) {g : Graph κ}
    {es : List (Extracted κ)} (hes : ∀ e ∈ es, a.Origin known e.findings.path e) :
    ∀ c ∈ es.map (a.contribution g), owner c.key = c.path := by
  intro c hc
  obtain ⟨e, he, rfl⟩ := mem_map.mp hc
  exact h.owner_key (hes e he)

def initial (settings : Settings κ) (extractor : Extractor κ) : Analyzer κ :=
  { settings := settings, extractor := extractor }

theorem exists_names (hpath : ∀ (p : String) (e : Extracted κ), a.Origin known p e →
      e.findings.path = p)
    (hkeys : ∀ (p q : String) (file file' : SourceFile), known p file → known q file' →
      FileKey.of p file.content = FileKey.of q file'.content → p = q) :
    ∃ owner : FileKey → String, a.Names known owner := by
  classical
  refine ⟨fun k => if h : ∃ x : String × SourceFile, known x.1 x.2 ∧
    FileKey.of x.1 x.2.content = k then h.choose.1 else "", ⟨hpath, fun p file hknown => ?_⟩⟩
  have hex : ∃ x : String × SourceFile, known x.1 x.2 ∧
      FileKey.of x.1 x.2.content = FileKey.of p file.content := ⟨(p, file), hknown, rfl⟩
  show (if h : ∃ x : String × SourceFile, known x.1 x.2 ∧
    FileKey.of x.1 x.2.content = FileKey.of p file.content then h.choose.1 else "") = p
  rw [dif_pos hex]
  exact hkeys _ p _ file hex.choose_spec.1 hknown hex.choose_spec.2

theorem getElem?_remember (cache : ExtTreeMap String (Extracted κ) compare)
    (gone : List String) (files : List (Extracted κ)) (p : String) :
    (remember (forget cache gone) files)[p]? =
      (files.reverse.find? (·.findings.path == p)).or (if p ∈ gone then none else cache[p]?) := by
  rw [remember, forget, getElem?_insertAll, getElem?_eraseAll]

theorem find?_path_eq_none {es : List (Extracted κ)} {p : String}
    (h : ∀ e ∈ es, e.findings.path ≠ p) : es.reverse.find? (·.findings.path == p) = none := by
  rw [find?_eq_none]
  intro e he hpath
  exact h e (mem_reverse.mp he) (by simpa using hpath)

theorem of_find?_path {es : List (Extracted κ)} {p : String}
    (h : es.reverse.find? (·.findings.path == p) = some e) : e ∈ es ∧ e.findings.path = p :=
  ⟨mem_reverse.mp (mem_of_find?_eq_some h), by simpa using find?_some h⟩

theorem find?_path_eq_some {es : List (Extracted κ)} (he : e ∈ es)
    (h : ∀ e' ∈ es, e'.findings.path = e.findings.path → e' = e) :
    es.reverse.find? (·.findings.path == e.findings.path) = some e := by
  cases hfind : es.reverse.find? (·.findings.path == e.findings.path) with
  | none =>
    have := find?_eq_none.mp hfind e (mem_reverse.mpr he)
    exact absurd this (by simp)
  | some e' =>
    obtain ⟨hmem, hpath⟩ := of_find?_path hfind
    rw [h e' hmem hpath]

variable [Confidence κ]

/-- **Contributions and findings go together**: a path has both or none, and the contribution is
what the findings were resolved to against some graph. -/
def Paired (a : Analyzer κ) (known : String → SourceFile → Prop) (t : Contributions κ)
    (cache : ExtTreeMap String (Extracted κ) compare) : Prop :=
  ∀ p : String, t[p]? = none ∧ cache[p]? = none ∨
    ∃ (e : Extracted κ) (g : Graph κ), cache[p]? = some e ∧ t[p]? = some (a.contribution g e) ∧
      a.Origin known p e ∧ (a.contribution g e).IsSound

variable {t : Contributions κ} {g : Graph κ} {cache : ExtTreeMap String (Extracted κ) compare}

theorem paired_empty : a.Paired known ∅ ∅ := fun _ =>
  .inl ⟨ExtTreeMap.getElem?_empty, ExtTreeMap.getElem?_empty⟩

section

variable (t : Contributions κ) (gone : List String) (files : List (Extracted κ)) (p : String)

theorem getElem?_after_map : (t.after (files.map (a.contribution g)) gone)[p]? =
      ((files.reverse.find? (·.findings.path == p)).map (a.contribution g)).or
        (if p ∈ gone then none else t[p]?) := by
  rw [Contributions.getElem?_after, ← map_reverse, find?_map]
  rfl

theorem getElem?_after_resolved : (t.after (a.resolved g files).changed gone)[p]? =
      (((a.resolved g files).files.reverse.find? (·.findings.path == p)).map
        (a.contribution g)).or (if p ∈ gone then none else t[p]?) :=
  getElem?_after_map t gone _ p

end

/-- **Resolved files are entered with their findings.** -/
theorem Paired.enter (h : a.Paired known t cache) {files : List (Extracted κ)}
    (hfiles : ∀ e ∈ files, a.Origin known e.findings.path e ∧ (a.contribution g e).IsSound)
    (gone : List String) : a.Paired known (t.after (files.map (a.contribution g)) gone)
      (remember (forget cache gone) files) := by
  intro p
  rw [getElem?_remember, getElem?_after_map]
  cases hfind : files.reverse.find? (·.findings.path == p) with
  | some e =>
    obtain ⟨hmem, rfl⟩ := of_find?_path hfind
    obtain ⟨horigin, hsound⟩ := hfiles e hmem
    exact .inr ⟨e, g, rfl, rfl, horigin, hsound⟩
  | none =>
    rw [Option.none_or, Option.map_none, Option.none_or]
    split
    · exact .inl ⟨rfl, rfl⟩
    · exact h p

theorem Paired.of_cached (h : a.Paired known t cache) {p : String} (he : cache[p]? = some e) :
    ∃ g, t[p]? = some (a.contribution g e) ∧ a.Origin known p e := by
  rcases h p with ⟨-, hnone⟩ | ⟨e', g, he', hc, horigin, -⟩
  · rw [he] at hnone
    cases hnone
  · obtain rfl := Option.some.inj (he.symm.trans he')
    exact ⟨g, hc, horigin⟩

theorem Paired.refresh (h : a.Paired known t cache) {files : List (Extracted κ)}
    (hfiles : ∀ e ∈ files, cache[e.findings.path]? = some e ∧ (a.contribution g e).IsSound) :
    a.Paired known (t.after (files.map (a.contribution g)) []) cache := by
  intro p
  rw [getElem?_after_map, if_neg not_mem_nil]
  cases hfind : files.reverse.find? (·.findings.path == p) with
  | some e =>
    obtain ⟨hmem, rfl⟩ := of_find?_path hfind
    obtain ⟨hcached, hsound⟩ := hfiles e hmem
    obtain ⟨-, -, horigin⟩ := h.of_cached hcached
    exact .inr ⟨e, g, hcached, rfl, horigin, hsound⟩
  | none => exact h p

/-- **What an analyzer keeps**: its store holds contributions, and they go together with its
findings. -/
structure Kept (a : Analyzer κ) (known : String → SourceFile → Prop) (owner : FileKey → String)
    (t : Contributions κ) : Prop where
  names : a.Names known owner
  holds : a.store.Holds owner t
  identified : a.store.Identified
  paired : a.Paired known t a.cache

theorem kept_initial {settings : Settings κ} {extractor : Extractor κ}
    (h : (initial settings extractor).Names known owner) :
    (initial settings extractor).Kept known owner ∅ where
  names := h
  holds := Store.holds_empty owner
  identified := ⟨Ledger.each_empty 0, Graph.sound_empty 0⟩
  paired := paired_empty

namespace Kept

variable {removed : List String} {store : Store κ}

section

variable (h : a.Kept known owner t)

include h

theorem contributionFor?_eq (p : String) :
    a.store.ledger.contributionFor? p = t[p]? := h.holds.records.contributionFor?_eq p

theorem exists_cached {p : String} {c : Contribution κ}
    (hc : t[p]? = some c) : ∃ e g, a.cache[p]? = some e ∧ c = a.contribution g e ∧
      a.Origin known p e := by
  rcases h.paired p with ⟨hnone, -⟩ | ⟨e, g, he, hc', horigin, -⟩
  · rw [hc] at hnone
    cases hnone
  · exact ⟨e, g, he, Option.some.inj (hc.symm.trans hc'), horigin⟩

theorem origin_of_cache {p : String} (he : a.cache[p]? = some e) : a.Origin known p e := by
  obtain ⟨-, -, horigin⟩ := h.paired.of_cached he
  exact horigin

theorem path_of_cache {p : String} (he : a.cache[p]? = some e) :
    e.findings.path = p := h.names.path p e (h.origin_of_cache he)

theorem cached?_eq (p : String) : a.cached? p = a.cache[p]? := by
  rw [cached?, ExtTreeMap.get?_eq_getElem?]
  rcases h.paired p with ⟨-, hnone⟩ | ⟨e, g, he, hc, -, -⟩
  · rw [hnone]
    rfl
  · have hfile : a.store.graph.fileKey? p = some e.key := by
      rw [Graph.fileKey?, ExtTreeMap.get?_eq_getElem?, h.holds.shows.files, hc]
      rfl
    rw [he, Option.filter_some, hfile]
    simp

theorem identified_contributions : t.Identified := fun p c hc =>
  h.identified.ledger c.key c (h.holds.records.held p c hc)

theorem cache_of_mem_cached {paths : List String} {e : Extracted κ}
    (he : e ∈ paths.filterMap a.cached?) : a.cache[e.findings.path]? = some e := by
  obtain ⟨p, -, hp⟩ := mem_filterMap.mp he
  rw [h.cached?_eq] at hp
  rw [h.path_of_cache hp]
  exact hp

theorem origin_of_changed (hknown : ∀ x ∈ byPath files, known x.1 x.2)
    (he : e ∈ a.changedFiles base files) : a.Origin known e.findings.path e := by
  obtain ⟨x, hx, hversion, -⟩ := mem_changedFiles.mp he
  exact h.names.origin ⟨x.2, hknown x hx, hversion⟩

theorem refreshedFiles_eq_nil : a.refreshedFiles (some a.store.graph) files = [] := by
  rw [eq_nil_iff_forall_not_mem]
  intro e he
  obtain ⟨x, -, -, hheld, hcached⟩ := of_mem_refreshedFiles he
  have hfile : a.store.graph.files[x.1]? = some e.key := by
    simpa [isHeld, Graph.fileKey?] using hheld
  rw [h.holds.shows.files, Option.map_eq_some_iff] at hfile
  obtain ⟨c, hc, hkey⟩ := hfile
  obtain ⟨e', g, he', rfl, -⟩ := h.exists_cached hc
  have hkey : e'.key = e.key := hkey
  rw [he', Option.any_some, hkey] at hcached
  simp at hcached

/-- After the first pass a path has the findings that were entered for it, or those it had. -/
theorem cache_between (p : String) : (a.between files removed store).cache[p]? =
      ((a.firstPass files removed).files.reverse.find? (·.findings.path == p)).or
        (if p ∈ a.gone files removed then none else a.cache[p]?) := by
  rw [Analyzer.between, h.refreshedFiles_eq_nil, append_nil]
  exact getElem?_remember a.cache (a.gone files removed) (a.firstPass files removed).files p

/-- **The first pass of an update** enters contributions together with findings. -/
theorem between (hknown : ∀ x ∈ byPath files, known x.1 x.2)
    (happly : a.store.applyChanges (a.firstPass files removed).changed (a.gone files removed) =
      .ok store) : (a.between files removed store).Kept known owner
        (t.after (a.firstPass files removed).changed (a.gone files removed)) ∧
      store.graph.Succeeds a.store.graph := by
  have horigin : ∀ e ∈ (a.firstPass files removed).files, a.Origin known e.findings.path e :=
    fun e he => h.origin_of_changed hknown (mem_filter.mp he).1
  obtain ⟨hholds, hsucceeds⟩ := h.holds.applyChanges (h.names.owner_changed horigin) happly
  refine ⟨⟨⟨h.names.path, h.names.key⟩, hholds, h.identified.applyChanges happly, ?_⟩, hsucceeds⟩
  have hpaired := h.paired.enter (g := a.staged files removed) (fun e he =>
    ⟨horigin e he, isSound_iff.mp (mem_filter.mp he).2⟩) (a.gone files removed)
  rw [Analyzer.between, h.refreshedFiles_eq_nil, append_nil]
  exact hpaired

/-- **The second pass of an update** changes contributions and leaves findings. -/
theorem secondPass (paths : List String) (happly : a.store.applyChanges
      (a.resolved a.store.graph (paths.filterMap a.cached?)).changed [] = .ok store) :
    { a with store := store }.Kept known owner
        (t.after (a.resolved a.store.graph (paths.filterMap a.cached?)).changed []) ∧
      store.graph.Succeeds a.store.graph := by
  obtain ⟨hholds, hsucceeds⟩ := h.holds.applyChanges (h.names.owner_changed fun e he =>
    h.origin_of_cache (h.cache_of_mem_cached (mem_filter.mp he).1)) happly
  refine ⟨⟨⟨h.names.path, h.names.key⟩, hholds, h.identified.applyChanges happly, ?_⟩, hsucceeds⟩
  exact h.paired.refresh fun e he =>
    ⟨h.cache_of_mem_cached (mem_filter.mp he).1, isSound_iff.mp (mem_filter.mp he).2⟩

theorem rebuild (hknown : ∀ x ∈ byPath files, known x.1 x.2)
    (hrebuild : a.store.rebuild (a.rebuiltPass files).changed = .ok store) :
    { a with store := store, cache := remember ∅ (a.rebuiltPass files).files }.Kept known owner
      (Contributions.after ∅ (a.rebuiltPass files).changed []) := by
  have horigin : ∀ e ∈ (a.rebuiltPass files).files, a.Origin known e.findings.path e := by
    intro e he
    obtain ⟨x, hx, hversion⟩ := mem_rebuiltFiles.mp (mem_filter.mp he).1
    exact h.names.origin ⟨x.2, hknown x hx, hversion⟩
  refine ⟨⟨h.names.path, h.names.key⟩,
    (h.holds.rebuild (h.names.owner_changed horigin) hrebuild).1,
    Store.Identified.rebuild hrebuild, ?_⟩
  exact paired_empty.enter (fun e he =>
    ⟨horigin e he, isSound_iff.mp (mem_filter.mp he).2⟩) []

end

end Kept

end Analyzer

end AppAtlas
