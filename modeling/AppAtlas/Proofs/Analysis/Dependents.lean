import AppAtlas.Proofs.Analysis.Freshness

/-!
# Stale dependents

After an update, is every contribution still what its findings resolve to?  It is, with exceptions
that can be named: the file is listed for the caller, some file of the batch failed, or the file was
submitted in the batch and found unchanged or skipped although it depends on what the batch changes.
The last one is not listed: a file of the batch is never taken for a dependent, also if nothing was
done with it.

* `fresh_or_excused_after_update`: after an update each file is fresh or one of the exceptions.
* `unchanged_reader_left_stale`: a file that is submitted unchanged together with the table it reads
  is left stale, and is not listed.
-/

namespace AppAtlas

open Std OrderedMap

variable {κ : Type} [Confidence κ]

namespace Analyzer

/-- The analyzers that updates and rebuilds lead to, when the files submitted are known ones. -/
inductive Reached (settings : Settings κ) (extractor : Extractor κ)
    (known : String → SourceFile → Prop) : Analyzer κ → Prop where
  | start : Reached settings extractor known (initial settings extractor)
  | update {a : Analyzer κ} {files : List SourceFile} {removed : List String} {token : CancelToken}
    (ha : Reached settings extractor known a) (hknown : ∀ x ∈ byPath files, known x.1 x.2) :
    Reached settings extractor known (a.update files removed token).analyzer
  | rebuild {a : Analyzer κ} {files : List SourceFile} {token : CancelToken}
    (ha : Reached settings extractor known a) (hknown : ∀ x ∈ byPath files, known x.1 x.2) :
    Reached settings extractor known (a.rebuild files token).analyzer

variable {settings : Settings κ} {extractor : Extractor κ} {known : String → SourceFile → Prop}
  {owner : FileKey → String} {a : Analyzer κ} {t : Contributions κ} {files : List SourceFile}
  {removed : List String} {token : CancelToken}

theorem Kept.afterUpdate (h : a.Kept known owner t) (hknown : ∀ x ∈ byPath files, known x.1 x.2) :
    ∃ t', (a.update files removed token).analyzer.Kept known owner t' := by
  rcases update_cases a files removed token with
    ⟨store, run, happly, -, hupdate⟩ | ⟨⟨hsame, -⟩, -⟩
  · obtain ⟨t', hkept, -⟩ := h.lastPass_spec hknown happly token run rfl
    rw [hupdate]
    exact ⟨t', hkept⟩
  · rw [hsame]
    exact ⟨t, h⟩

theorem Kept.afterRebuild (h : a.Kept known owner t) (hknown : ∀ x ∈ byPath files, known x.1 x.2) :
    ∃ t', (a.rebuild files token).analyzer.Kept known owner t' := by
  rcases rebuild_cases a files token with ⟨store, run, hrebuild, heq⟩ | ⟨⟨hsame, -⟩, -⟩
  · rw [heq]
    exact ⟨_, h.rebuild hknown hrebuild⟩
  · rw [hsame]
    exact ⟨t, h⟩

/-- **Whatever updates and rebuilds lead to an analyzer**, it keeps contributions and findings
together. -/
theorem Reached.kept (ha : Reached settings extractor known a)
    (h : (initial settings extractor).Names known owner) : ∃ t, a.Kept known owner t := by
  induction ha with
  | start => exact ⟨∅, kept_initial h⟩
  | update _ hknown ih =>
    obtain ⟨t, ht⟩ := ih
    exact ht.afterUpdate hknown
  | rebuild _ hknown ih =>
    obtain ⟨t, ht⟩ := ih
    exact ht.afterRebuild hknown

end Analyzer

/-- Files that define one identity give it the same keys, throughout a store.  Where they do not,
the removal of one definition brings up another under keys that do not count as changed. -/
def Store.Coherent (s : Store κ) : Prop :=
  ∀ c ∈ s.ledger.contributions.values, ∀ d ∈ s.ledger.contributions.values, ∀ n ∈ c.nodes,
    ∀ m ∈ d.nodes, n.id = m.id → n.lookupKeys = m.lookupKeys

instance (s : Store κ) : Decidable s.Coherent :=
  inferInstanceAs (Decidable (∀ c ∈ _, ∀ d ∈ _, ∀ n ∈ _, ∀ m ∈ _, _ → _))

omit [Confidence κ] in
theorem Store.Coherent.contributions {s : Store κ} {t : Contributions κ} (h : s.Coherent)
    (hrecords : s.ledger.Records t) : t.Coherent := by
  intro p q c d id n m hc hd hn hm
  refine h c (mem_values.mpr ⟨c.key, hrecords.held p c hc⟩) d
    (mem_values.mpr ⟨d.key, hrecords.held q d hd⟩) n (Contribution.mem_of_node? hn) m
    (Contribution.mem_of_node? hm) ?_
  rw [Contribution.id_of_node? hn, Contribution.id_of_node? hm]

/-- **After an update each file with findings is fresh, or one of four exceptions.**  Its
contribution is what its findings resolve to against the graph of now, or it is listed, or it was
submitted and found unchanged or skipped although it had looked up a key of something that changed,
or some file failed, or it was not fresh before.  Identities must not be mistaken for one another,
names must be spelled as usual, and files that define one identity must give it the same keys. -/
theorem fresh_or_excused_after_update {settings : Settings κ} {extractor : Extractor κ}
    {known : String → SourceFile → Prop}
    (hpath : ∀ (p : String) (file : SourceFile), known p file → ∀ artifact : ArtifactKind,
      (extractor.findings artifact p file.content).path = p)
    (hkeys : ∀ (p q : String) (file file' : SourceFile), known p file → known q file' →
      FileKey.of p file.content = FileKey.of q file'.content → p = q)
    {a : Analyzer κ} (ha : Analyzer.Reached settings extractor known a)
    {files : List SourceFile} {removed : List String} {token : CancelToken} {summary : Summary}
    (hknown : ∀ x ∈ Analyzer.byPath files, known x.1 x.2)
    (hok : (a.update files removed token).result = .ok summary)
    (hcoherent : a.store.Coherent)
    (hcoherent' : (a.update files removed token).analyzer.store.Coherent)
    {p : String} {e : Extracted κ}
    (hcached : (a.update files removed token).analyzer.cached? p = some e)
    (hregular : ∀ r ∈ e.findings.references, r.target.Regular)
    (hapart : ∀ n ∈ a.store.graph.nodeList ++
        (a.update files removed token).analyzer.store.graph.nodeList,
      n.isConcrete → ∀ r ∈ e.findings.references, ∀ probe ∈ r.target.probes,
        NodeId.Apart (n.kind, n.signature) probe) :
    (a.update files removed token).analyzer.store.ledger.contributionFor? p =
        some (a.settings.resolver.resolve e.key e.findings
          (a.update files removed token).analyzer.store.graph) ∨
      p ∈ summary.needsReanalysis ∨
      ((∃ o ∈ summary.files, o.path = p ∧
          (o.status = .unchanged ∨ ∃ reason : String, o.status = .skipped reason)) ∧
        ∃ k ∈ (a.settings.resolver.resolve e.key e.findings a.store.graph).lookups,
          k ∈ a.touchedKeys files removed) ∨
      (∃ o ∈ summary.files, ∃ reason : String, o.status = .failed reason) ∨
      (a.cached? p = some e ∧ a.store.ledger.contributionFor? p ≠
        some (a.settings.resolver.resolve e.key e.findings a.store.graph)) := by
  obtain ⟨owner, hnames⟩ : ∃ owner : FileKey → String,
      (Analyzer.initial settings extractor).Names known owner := by
    refine Analyzer.exists_names (fun p e he => ?_) hkeys
    obtain ⟨file, hfile, hversion⟩ := he
    obtain ⟨artifact, rfl⟩ := Analyzer.exists_artifact hversion
    exact hpath p file hfile artifact
  obtain ⟨t, hkept⟩ := ha.kept hnames
  obtain ⟨t', hkept', hfresh⟩ := hkept.update hknown hok
  rw [hkept'.cached?_eq] at hcached
  have hprobes : ∀ r ∈ e.findings.references, ∀ probe ∈ r.target.probes,
      a.store.graph.ApartFrom probe ∧
        (a.update files removed token).analyzer.store.graph.ApartFrom probe := by
    intro r hr probe hprobe
    refine ⟨fun id n hn hconcrete => ?_, fun id n hn hconcrete => ?_⟩
    · exact hapart n (List.mem_append_left _ (mem_values.mpr ⟨id, hn⟩)) hconcrete r hr probe hprobe
    · exact hapart n (List.mem_append_right _ (mem_values.mpr ⟨id, hn⟩)) hconcrete r hr probe hprobe
  rw [hkept'.contributionFor?_eq, hkept.cached?_eq, hkept.contributionFor?_eq]
  rcases hfresh (hcoherent.contributions hkept.holds.records)
      (hcoherent'.contributions hkept'.holds.records) p e hcached
      (fun r hr => (hregular r hr).covered) hprobes with
    hnow | ⟨hlisted, -⟩ | hheld | hfailed | hbefore
  · exact Or.inl hnow
  · exact Or.inr (Or.inl hlisted)
  · exact Or.inr (Or.inr (Or.inl hheld))
  · exact Or.inr (Or.inr (Or.inr (Or.inl hfailed)))
  · exact Or.inr (Or.inr (Or.inr (Or.inr hbefore)))

/-! ### A reader and the table it reads -/

def reader : SourceFile := { path := "a.sql", content := "delete from t;" }

def schema : SourceFile := { path := "b.ddl", content := "create table t ();" }

def tableFiles : List (String × SourceFile) := [("a.sql", reader), ("b.ddl", schema)]

def readerSeen : Analyzer Rat :=
  ((Analyzer.initial .standard (.standard .standard)).update [reader] []).analyzer

theorem exists_summary {x : Analysis Rat} {paths : List String}
    (h : x.result.toOption.map (·.needsReanalysis) = some paths) :
    ∃ summary, x.result = .ok summary ∧ summary.needsReanalysis = paths := by
  cases hx : x.result with
  | error err => rw [hx] at h; exact absurd h (by simp [Except.toOption])
  | ok summary => rw [hx] at h; exact ⟨summary, rfl, Option.some.inj h⟩

/-- The table arrives alone, after the reader: the reader is resolved again. -/
theorem reader_fresh_or_excused_after_table :
    ∃ (summary : Summary) (e : Extracted Rat),
      (readerSeen.update [schema] []).result = .ok summary ∧ summary.needsReanalysis = [] ∧
      (readerSeen.update [schema] []).analyzer.cached? "a.sql" = some e ∧
      ((readerSeen.update [schema] []).analyzer.store.ledger.contributionFor? "a.sql" =
          some (readerSeen.settings.resolver.resolve e.key e.findings
            (readerSeen.update [schema] []).analyzer.store.graph) ∨
        "a.sql" ∈ summary.needsReanalysis ∨
        ((∃ o ∈ summary.files, o.path = "a.sql" ∧
            (o.status = .unchanged ∨ ∃ reason : String, o.status = .skipped reason)) ∧
          ∃ k ∈ (readerSeen.settings.resolver.resolve e.key e.findings
            readerSeen.store.graph).lookups, k ∈ readerSeen.touchedKeys [schema] []) ∨
        (∃ o ∈ summary.files, ∃ reason : String, o.status = .failed reason) ∨
        (readerSeen.cached? "a.sql" = some e ∧ readerSeen.store.ledger.contributionFor? "a.sql" ≠
          some (readerSeen.settings.resolver.resolve e.key e.findings
            readerSeen.store.graph))) := by
  obtain ⟨summary, hok, hneeds⟩ := exists_summary
    (show (readerSeen.update [schema] []).result.toOption.map (·.needsReanalysis) = some [] by
      decide +kernel)
  have hreached : Analyzer.Reached .standard (.standard .standard)
      (fun p file => (p, file) ∈ tableFiles) readerSeen := .update .start (by decide +kernel)
  have hpath : ∀ artifact : ArtifactKind, ∀ x ∈ tableFiles,
      (Extract.findings (Extract.Options.standard : Extract.Options Rat) artifact x.1
        x.2.content).path = x.1 := by
    intro artifact
    cases artifact <;> decide +kernel
  have hkeys : ∀ x ∈ tableFiles, ∀ y ∈ tableFiles,
      FileKey.of x.1 x.2.content = FileKey.of y.1 y.2.content → x.1 = y.1 := by
    decide +kernel
  have hcached : ((readerSeen.update [schema] []).analyzer.cached? "a.sql").any (fun e =>
      (∀ r ∈ e.findings.references, r.target.Regular) ∧
        ∀ n ∈ readerSeen.store.graph.nodeList ++
            (readerSeen.update [schema] []).analyzer.store.graph.nodeList,
          n.isConcrete → ∀ r ∈ e.findings.references, ∀ probe ∈ r.target.probes,
            NodeId.Apart (n.kind, n.signature) probe) = true := by
    decide +kernel
  obtain ⟨e, he, hfits⟩ := (Option.any_eq_true _ _).mp hcached
  obtain ⟨hregular, hapart⟩ := of_decide_eq_true hfits
  refine ⟨summary, e, hok, hneeds, he, ?_⟩
  exact fresh_or_excused_after_update (fun p file h artifact => hpath artifact (p, file) h)
    (fun p q file file' h h' => hkeys (p, file) h (q, file') h') hreached (by decide +kernel) hok
    (by decide +kernel) (by decide +kernel) he hregular hapart

/-- **A reader that is submitted again together with the table it reads is left stale**, and it is
not listed. -/
theorem unchanged_reader_left_stale :
    ∃ (summary : Summary) (e : Extracted Rat),
      (readerSeen.update [reader, schema] []).result = .ok summary ∧ summary.needsReanalysis = [] ∧
      (readerSeen.update [reader, schema] []).analyzer.cached? "a.sql" = some e ∧
      (readerSeen.update [reader, schema] []).analyzer.store.ledger.contributionFor? "a.sql" ≠
        some (readerSeen.settings.resolver.resolve e.key e.findings
          (readerSeen.update [reader, schema] []).analyzer.store.graph) := by
  obtain ⟨summary, hok, hneeds⟩ := exists_summary
    (show (readerSeen.update [reader, schema] []).result.toOption.map (·.needsReanalysis) =
        some [] by
      decide +kernel)
  have hstale : ((readerSeen.update [reader, schema] []).analyzer.cached? "a.sql").any (fun e =>
      (readerSeen.update [reader, schema] []).analyzer.store.ledger.contributionFor? "a.sql" ≠
        some (readerSeen.settings.resolver.resolve e.key e.findings
          (readerSeen.update [reader, schema] []).analyzer.store.graph)) = true := by
    decide +kernel
  obtain ⟨e, he, hne⟩ := (Option.any_eq_true _ _).mp hstale
  exact ⟨summary, e, hok, hneeds, he, of_decide_eq_true hne⟩

end AppAtlas
