import Mathlib.Logic.Relation
import AppAtlas.Extract.Artifact

/-!
# How findings grow

An extractor starts from the path and the kind of a file and then takes one step after the other: it
defines something, refers from something it has defined, reports a problem or notes the scope of the
file.  This file shows that no extractor does anything else.  What findings are like follows from
the steps alone, whatever the content of the file.

Some definitions are left out because the findings have one of the same kind and signature already.
That does no harm to the references made later: they only need the kind and the signature.

* `FindingSet.Step`, `FindingSet.Grows`: one step, and any number of them.
* `Extract.grows_sourceFindings`: what a Java file says is found by steps.
* `Extract.grows_findings`: the findings of all kinds of files are found by steps.
-/

namespace AppAtlas

open List

variable {κ : Type}

namespace FindingSet

/-- **Findings support a reference** if they define what it comes from, and if that is a statement
whenever the reference is to a table or a column. -/
structure Supports (f : FindingSet κ) (r : Reference κ) : Prop where
  source : f.defines r.fromKind r.source = true
  usage : r.edge ∈ [EdgeKind.reads, .writes, .mentions] → r.fromKind = .statement

inductive Step (f : FindingSet κ) : FindingSet κ → Prop where
  | define (d : Definition) (hd : d.kind ≠ .stub) : Step f (f.define d)
  | refer (r : Reference κ) (hr : f.Supports r) : Step f (f.refer r)
  | report (line : Nat) (message : String) : Step f (f.report line message)
  | rescope (scope : Option String) : Step f { f with scope := scope }

/-- Findings grow to others by any number of steps. -/
def Grows : FindingSet κ → FindingSet κ → Prop := Relation.ReflTransGen Step

variable {f g g' : FindingSet κ} {kind : NodeKind} {signature : String}

theorem defines_iff : f.defines kind signature ↔
    ∃ d ∈ f.definitions, d.kind = kind ∧ d.signature = signature := by
  rw [defines, any_eq_true]
  simp only [Bool.and_eq_true, beq_iff_eq]

/-- Anything that is defined may refer to what is no table or column. -/
theorem supports_of_edge {r : Reference κ} (h : f.defines r.fromKind r.source)
    (hedge : r.edge ∉ [EdgeKind.reads, .writes, .mentions]) : f.Supports r :=
  ⟨h, fun husage => absurd husage hedge⟩

theorem defines_define (f : FindingSet κ) (d : Definition) :
    (f.define d).defines d.kind d.signature :=
  defines_iff.mpr ⟨d, mem_append_right _ (mem_singleton_self d), rfl, rfl⟩

namespace Grows

theorem refl (f : FindingSet κ) : f.Grows f := Relation.ReflTransGen.refl

theorem trans (h : f.Grows g) (h' : g.Grows g') : f.Grows g' := Relation.ReflTransGen.trans h h'

theorem define (h : f.Grows g) {d : Definition} (hd : d.kind ≠ .stub) : f.Grows (g.define d) :=
  h.tail (.define d hd)

theorem refer (h : f.Grows g) {r : Reference κ} (hr : g.Supports r) : f.Grows (g.refer r) :=
  h.tail (.refer r hr)

theorem report (h : f.Grows g) (line : Nat) (message : String) : f.Grows (g.report line message) :=
  h.tail (.report line message)

theorem rescope (h : f.Grows g) (scope : Option String) : f.Grows { g with scope := scope } :=
  h.tail (.rescope scope)

/-- **What is defined stays defined.** -/
theorem defines (h : f.Grows g) (hf : f.defines kind signature) : g.defines kind signature := by
  induction h with
  | refl => exact hf
  | tail _ hstep ih =>
    cases hstep with
    | define d hd =>
      obtain ⟨d', hd', hsame⟩ := defines_iff.mp ih
      exact defines_iff.mpr ⟨d', mem_append_left _ hd', hsame⟩
    | refer r hr => exact ih
    | report line message => exact ih
    | rescope scope => exact ih

theorem supports {r : Reference κ} (h : f.Grows g) (hr : f.Supports r) : g.Supports r :=
  ⟨h.defines hr.source, hr.usage⟩

theorem refer_of_supports {r : Reference κ} (h : f.Grows g) (hr : f.Supports r) :
    f.Grows (g.refer r) :=
  h.refer (h.supports hr)

/-- Many steps are taken one by one.  Each may use that the findings have grown so far. -/
theorem foldl {α : Type} {step : FindingSet κ → α → FindingSet κ} (xs : List α) (h : f.Grows g)
    (hstep : ∀ g x, f.Grows g → f.Grows (step g x)) : f.Grows (xs.foldl step g) :=
  foldlRecOn xs step h fun g hg x _ => hstep g x hg

theorem foldl_report {α : Type} (h : f.Grows g) (line : α → Nat) (message : α → String)
    (xs : List α) : f.Grows (xs.foldl (fun g x => g.report (line x) (message x)) g) :=
  h.foldl xs fun _ x hg => hg.report (line x) (message x)

theorem referAll {rs : List (Reference κ)} (h : f.Grows g) (hrs : ∀ r ∈ rs, g.Supports r) :
    f.Grows { g with references := g.references ++ rs } := by
  induction rs generalizing g with
  | nil =>
    rw [append_nil]
    exact h
  | cons r rs ih =>
    have hr := hrs r mem_cons_self
    have hrest : ∀ r' ∈ rs, (g.refer r).Supports r' := fun r' hr' =>
      ⟨(hrs r' (mem_cons_of_mem r hr')).source, (hrs r' (mem_cons_of_mem r hr')).usage⟩
    rw [append_cons]
    exact ih (h.refer hr) hrest

theorem reportAll (h : f.Grows g) (issues : List Issue) :
    f.Grows { g with issues := g.issues ++ issues } := by
  induction issues generalizing g with
  | nil =>
    rw [append_nil]
    exact h
  | cons issue issues ih =>
    rw [append_cons]
    exact ih (h.report issue.line issue.message)

end Grows

end FindingSet

namespace Extract

open FindingSet

variable {f g : FindingSet κ}

/-! ### Tables -/

theorem grows_defineOnce (h : f.Grows g) {d : Definition} (hd : d.kind ≠ .stub) :
    f.Grows (defineOnce g d) := by
  rw [defineOnce]
  split
  · exact h
  · exact h.define hd

theorem defines_defineOnce (f : FindingSet κ) (d : Definition) :
    (defineOnce f d).defines d.kind d.signature := by
  rw [defineOnce]
  split
  · next hknown => exact hknown
  · exact f.defines_define d

theorem grows_addTables (h : f.Grows g) (origin : String) (tables : List Table) :
    f.Grows (addTables origin tables g) := by
  refine h.foldl tables fun g t hg => ?_
  have htable : f.Grows (defineOnce g (t.definition origin)) :=
    grows_defineOnce hg (by simp [Table.definition])
  exact htable.foldl t.columns fun g c hg => grows_defineOnce hg (by simp [Column.definition])

theorem grows_addDeclaredTables (h : f.Grows g) (text : String) :
    f.Grows (addDeclaredTables text g) :=
  (grows_addTables h _ _).foldl_report _ _ _

/-! ### Schemas -/

theorem grows_findingsOfRows (path : String) (rows : List SchemaRow) :
    (start path .schema : FindingSet κ).Grows (findingsOfRows path rows) :=
  grows_addTables (.refl _) _ _

theorem grows_findingsOfJson (path content : String) :
    (start path .schema : FindingSet κ).Grows (findingsOfJson path content) := by
  rw [findingsOfJson]
  split
  · next rows _ =>
    dsimp only
    split
    · exact (grows_findingsOfRows path rows).report _ _
    · exact grows_findingsOfRows path rows
  · exact (Grows.refl _).report _ _

theorem grows_findingsOfDelimited (delimiter : Char) (path content : String) :
    (start path .schema : FindingSet κ).Grows (findingsOfDelimited delimiter path content) := by
  rw [findingsOfDelimited]
  dsimp only
  split
  · exact .refl _
  · split
    · exact (Grows.refl _).report _ _
    · exact grows_addTables ((Grows.refl _).foldl_report _ _ _) _ _

theorem grows_schemaFindings (path content : String) :
    (start path .schema : FindingSet κ).Grows (schemaFindings path content) := by
  rw [schemaFindings]
  split
  · exact grows_findingsOfJson path content
  · split
    · exact grows_findingsOfDelimited ',' path content
    · split
      · exact grows_findingsOfDelimited '\t' path content
      · exact grows_addDeclaredTables (.refl _) content

/-! ### Statements -/

variable [Confidence κ]

/-- A statement is defined before it refers to its tables and columns. -/
theorem grows_addTo (h : f.Grows g) (s : Sql.Statement) (options : Options κ) :
    f.Grows (s.addTo options g) := by
  let u := Sql.analyze s.text
  have hdefined : (g.define (s.definition u)).defines .statement s.signature :=
    g.defines_define (s.definition u)
  have hreported := (h.define (d := s.definition u) (by simp [Sql.Statement.definition])).reportAll
    (u.problems.map fun p => ⟨s.lineAt p.line, s.signature ++ ": " ++ p.fault.message⟩)
  refine (hreported.referAll fun r hr => ?_).referAll fun r hr => ?_
  · obtain ⟨t, -, rfl⟩ := mem_map.mp hr
    exact ⟨hdefined, fun _ => rfl⟩
  · obtain ⟨c, -, rfl⟩ := mem_map.mp hr
    exact ⟨hdefined, fun _ => rfl⟩

/-! ### Pages -/

structure PageReader.Reads (f : FindingSet κ) (p : PageReader κ) : Prop where
  grows : f.Grows p.findings
  page : p.findings.defines p.kind p.web = true

namespace PageReader.Reads

omit [Confidence κ] in
theorem addAll {p : PageReader κ} (h : p.Reads f) {step : PageReader κ → Text.Match → PageReader κ}
    (hstep : ∀ q m, q.Reads f → (step q m).Reads f)
    (pat : Text.Pattern) (text : List Char) : (p.addAll pat text step).Reads f :=
  foldlRecOn (motive := fun q => q.Reads f) (pat.findAll text) step h
    fun q hq m _ => hstep q m hq

variable {p : PageReader κ} (h : p.Reads f)

include h

theorem add {edge : EdgeKind} (hedge : edge ∉ [EdgeKind.reads, .writes, .mentions])
    (target : Target) (offset : Nat) (dynamic : Bool) (note : Option String) :
    (p.add edge target offset dynamic note).Reads f := by
  rw [PageReader.add]
  dsimp only
  split
  · exact h
  · exact ⟨h.grows.refer (supports_of_edge h.page hedge), h.page⟩

theorem addInclude (raw : List Char) (offset : Nat) : (p.addInclude raw offset).Reads f := by
  rw [PageReader.addInclude]
  split
  · exact h
  · exact h.add (by decide) _ _ _ _

theorem addRoute (raw : List Char) (verb : Option String) (offset : Nat) :
    (p.addRoute raw verb offset).Reads f := by
  rw [PageReader.addRoute]
  split
  · exact h
  · split
    · exact h
    · exact h.add (by decide) _ _ _ _

theorem stepInclude (m : Text.Match) : (p.stepInclude m).Reads f := by
  rw [PageReader.stepInclude]
  split
  · exact h.addInclude _ _
  · exact h

theorem stepRoute (verb : Text.Match → Option String) (m : Text.Match) :
    (PageReader.stepRoute verb p m).Reads f := by
  rw [PageReader.stepRoute]
  split
  · exact h.addRoute _ _ _
  · exact h

theorem stepForm (m : Text.Match) : (p.stepForm m).Reads f := by
  rw [PageReader.stepForm]
  dsimp only
  split
  · exact h.addRoute _ _ _
  · exact h

theorem stepNavigation (m : Text.Match) : (p.stepNavigation m).Reads f := by
  rw [PageReader.stepNavigation]
  split
  · exact h.addRoute _ _ _
  · exact h

theorem stepRequest (m : Text.Match) : (p.stepRequest m).Reads f := by
  rw [PageReader.stepRequest]
  split
  · exact h.addRoute _ _ _
  · exact h

end PageReader.Reads

theorem grows_pageFindings (options : Options κ) (path content : String) :
    (start path .page).Grows (pageFindings options path content) := by
  rw [pageFindings]
  have hroute : ∀ (verb : Text.Match → Option String) (q : PageReader κ) (m : Text.Match),
      q.Reads (start path .page) →
        (PageReader.stepRoute verb q m).Reads (start path .page) :=
    fun verb _ m hq => hq.stepRoute verb m
  refine PageReader.Reads.grows ((((((((PageReader.Reads.addAll ?_
    (fun _ m hq => hq.stepInclude m) _ _).addAll
    (fun _ m hq => hq.stepInclude m) _ _).addAll
    (fun _ m hq => hq.stepForm m) _ _).addAll
    (hroute _) _ _).addAll
    (hroute _) _ _).addAll
    (fun _ m hq => hq.stepNavigation m) _ _).addAll
    (fun _ m hq => hq.stepRequest m) _ _).addAll
    (hroute _) _ _)
  have hreport : ∀ (message : String) (offsets : List Nat) {f g : FindingSet κ}, f.Grows g →
      f.Grows (offsets.foldl (fun g offset =>
        g.report ((Text.Lines.of content.toList).lineOf offset) message) g) :=
    fun message offsets _ _ hg => hg.foldl_report _ _ offsets
  let file := FilePath.normalize path
  let page : Definition :=
    { kind := if isFragmentPath file then .fragment else .page
      signature := Markup.webPath file
      name := Text.onString (Text.afterLast '/') (Markup.webPath file)
      lines := .of 1 (Text.Lines.of content.toList).count
      attributes := Std.ExtTreeMap.ofList [("file", file)] }
  have hpage : page.kind ≠ .stub := by
    dsimp only [page]
    split <;> simp
  have hscope := (Grows.refl (start path .page : FindingSet κ)).rescope
    (some (Markup.webDir (Markup.webPath file)))
  -- the page is defined before anything is reported
  refine ⟨hreport _ _ (hreport _ _ (hreport _ _ (hscope.define hpage))), ?_⟩
  exact (hreport _ _ (hreport _ _ (hreport _ _ (.refl _)))).defines (defines_define _ page)

/-! ### Scripts and mapper files -/

theorem grows_scriptFindings (options : Options κ) (path content : String) :
    (start path .sql).Grows (scriptFindings options path content) :=
  grows_addDeclaredTables
    ((Grows.refl _).foldl _ fun _ _ hg => grows_addTo hg _ options) content

omit [Confidence κ] in
theorem grows_addFragment (lines : Text.Lines) (known : Sql.Template.Fragments × FindingSet κ)
    (h : f.Grows known.2) (m : Text.Match) : f.Grows (addFragment lines known m).2 := by
  rw [addFragment]
  split
  · exact h
  · split
    · exact h
    · exact h.report _ _

omit [Confidence κ] in
theorem grows_addFragments (lines : Text.Lines) {known : Sql.Template.Fragments × FindingSet κ}
    (h : f.Grows known.2) (ms : List Text.Match) : f.Grows (ms.foldl (addFragment lines) known).2 :=
  foldlRecOn (motive := fun x => f.Grows x.2) ms
    (addFragment lines) h fun x hx m _ => grows_addFragment lines x hx m

theorem grows_addMapperStatement (h : f.Grows g) (options : Options κ) (lines : Text.Lines)
    (space : String) (fragments : Sql.Template.Fragments) (m : Text.Match) :
    f.Grows (addMapperStatement options lines space fragments g m) := by
  rw [addMapperStatement]
  dsimp only
  split
  · exact h
  · split
    · exact h.report _ _
    · split
      · exact h.report _ _
      · exact grows_addTo (h.foldl_report _ _ _) _ options

theorem grows_mapperFileFindings (options : Options κ) (path content : String) :
    (start path .sql).Grows (mapperFileFindings options path content) := by
  rw [mapperFileFindings]
  dsimp only
  refine Grows.foldl _ ?_ fun _ m hg => grows_addMapperStatement hg options _ _ _ m
  refine grows_addFragments _ ?_ _
  have hstart := (Grows.refl (start path .sql : FindingSet κ)).foldl_report
    (Text.Lines.of content.toList).lineOf (fun _ => "unterminated XML comment")
    (Markup.blankRegions "<!--".toList "-->".toList content.toList).2
  split
  · exact hstart.rescope _
  · exact (hstart.report 1 "mapper has no namespace").rescope _

theorem grows_sqlFindings (options : Options κ) (path content : String) :
    (start path .sql).Grows (sqlFindings options path content) := by
  rw [sqlFindings]
  split
  · exact grows_mapperFileFindings options path content
  · exact grows_scriptFindings options path content

/-! ### Components -/

structure Profile.Concrete (profile : Profile) : Prop where
  type : profile.typeKind ≠ .stub
  method : profile.methodKind ≠ .stub

theorem Profile.concrete_of_mem {p : Profile} (h : p ∈ [Profile.controller, .service, .mapper]) :
    p.Concrete := by
  simp only [mem_cons, not_mem_nil, or_false] at h
  rcases h with rfl | rfl | rfl <;> exact ⟨by decide, by decide⟩

section Component

variable (options : Options κ) {profile : Profile} {t : Java.TypeDecl} {m : Java.Method}

theorem callReference?_spec {s : Java.Source} {source : String} {c : Java.Call} {r : Reference κ}
    (h : callReference? options profile s t source c = some r) :
    r.fromKind = profile.methodKind ∧ r.source = source ∧
      (r.edge = .executes ∨ r.edge = .invokes) := by
  rw [callReference?] at h
  dsimp only at h
  split at h
  · cases h
    exact ⟨rfl, rfl, .inl rfl⟩
  · cases h
    exact ⟨rfl, rfl, .inr rfl⟩
  · split at h
    · obtain rfl := Option.some.inj (Option.ite_none_right_eq_some.mp h).2
      exact ⟨rfl, rfl, .inr rfl⟩
    · obtain rfl := Option.some.inj (Option.ite_none_right_eq_some.mp h).2
      exact ⟨rfl, rfl, .inr rfl⟩
    · obtain rfl := Option.some.inj (Option.ite_none_right_eq_some.mp h).2
      exact ⟨rfl, rfl, .inr rfl⟩
    · cases h

theorem overrideReference?_spec {s : Java.Source} {r : Reference κ}
    (h : overrideReference? profile s t m = some r) :
    r.fromKind = profile.methodKind ∧ r.source = methodSignature t m ∧ r.edge = .implements := by
  rw [overrideReference?] at h
  dsimp only at h
  split at h
  · cases h
    exact ⟨rfl, rfl, rfl⟩
  · cases h

omit [Confidence κ] in
theorem supports_of_method {r : Reference κ}
    (hmethod : f.defines profile.methodKind (methodSignature t m))
    (hkind : r.fromKind = profile.methodKind) (hsource : r.source = methodSignature t m)
    (hedge : r.edge ∈ [EdgeKind.executes, .invokes, .implements]) : f.Supports r := by
  refine supports_of_edge (by rwa [hkind, hsource]) ?_
  revert hedge
  generalize r.edge = edge
  cases edge <;> decide

section Method

variable (h : f.Grows g) (hmethod : f.defines profile.methodKind (methodSignature t m) = true)

include h hmethod

theorem grows_addBound : f.Grows (addBound options profile t m g) := by
  rw [addBound]
  refine Grows.refer_of_supports ?_
    (supports_of_method hmethod rfl rfl (by simp [Reference.of]))
  split
  · exact h
  · split
    · exact grows_addTo (h.foldl_report _ _ _) _ options
    · exact h

theorem grows_addEmbedded (e : Java.EmbeddedSql × Nat) :
    f.Grows (addEmbedded options profile t m g e) :=
  (grows_addTo h _ options).refer_of_supports
    (supports_of_method hmethod rfl rfl (by simp [Reference.of]))

end Method

variable (hp : profile.Concrete) (h : f.Grows g) (s : Java.Source)

include hp h

theorem grows_addMethod (earlier : Nat) : f.Grows (addMethod options profile s t earlier m g) := by
  refine (grows_defineOnce h (d := methodDefinition profile t m) hp.method).trans ?_
  have hmethod : (defineOnce g (methodDefinition profile t m)).defines profile.methodKind
    (methodSignature t m) := defines_defineOnce g (methodDefinition profile t m)
  rw [addMethod]
  generalize defineOnce g (methodDefinition profile t m) = defined at hmethod ⊢
  refine Grows.foldl _ ?_ fun _ e hg => grows_addEmbedded options hg hmethod e
  have hbound : defined.Grows
      (if isBound profile t then addBound options profile t m defined else defined) := by
    split
    · exact grows_addBound options (.refl defined) hmethod
    · exact .refl defined
  have hoverride : defined.Grows ((overrideReference? profile s t m).elim
      (if isBound profile t then addBound options profile t m defined else defined)
      (if isBound profile t then addBound options profile t m defined else defined).refer) := by
    cases hr : overrideReference? (κ := κ) profile s t m with
    | none => exact hbound
    | some r =>
      obtain ⟨hkind, hsource, hedge⟩ := overrideReference?_spec hr
      exact hbound.refer_of_supports (supports_of_method hmethod hkind hsource (by simp [hedge]))
  refine hoverride.referAll fun r hr => hoverride.supports ?_
  obtain ⟨c, -, hc⟩ := mem_filterMap.mp hr
  obtain ⟨hkind, hsource, hedge⟩ := callReference?_spec options hc
  exact supports_of_method hmethod hkind hsource (by rcases hedge with hedge | hedge <;> simp [hedge])

theorem grows_addMethods (before ms : List Java.Method) :
    f.Grows (addMethods options profile s t before ms g) := by
  induction ms generalizing before g with
  | nil => exact h
  | cons m ms ih => exact ih (grows_addMethod options hp h s _) (m :: before)

theorem grows_addType (t : Java.TypeDecl) : f.Grows (addType options profile s g t) := by
  have hdefined : (g.define (typeDefinition profile s t)).defines profile.typeKind t.fullName :=
    g.defines_define (typeDefinition profile s t)
  refine grows_addMethods options hp ((h.define (d := typeDefinition profile s t) hp.type).referAll
    fun r hr => ?_) s [] _
  obtain ⟨written, -, rfl⟩ := mem_map.mp hr
  exact supports_of_edge hdefined (by simp [Reference.of])

end Component

/-- **What a Java file says is found by steps**, whatever the parser has made of it. -/
theorem grows_sourceFindings (options : Options κ) {profile : Profile} (hp : profile.Concrete)
    (path : String) (s : Java.Source) :
    (start path profile.artifact).Grows (sourceFindings options profile path s) := by
  rw [sourceFindings]
  refine Grows.foldl _ ?_ fun _ t hg => grows_addType options hp hg s t
  exact ((Grows.refl _).rescope s.package).foldl_report _ _ _

/-- **The findings of all kinds of files are found by steps.** -/
theorem grows_findings (options : Options κ) (kind : ArtifactKind) (path content : String) :
    (start path kind).Grows (findings options kind path content) := by
  cases kind with
  | page => exact grows_pageFindings options path content
  | controller =>
    exact grows_sourceFindings options (Profile.concrete_of_mem (p := .controller) (by decide)) path _
  | service =>
    exact grows_sourceFindings options (Profile.concrete_of_mem (p := .service) (by decide)) path _
  | mapper =>
    exact grows_sourceFindings options (Profile.concrete_of_mem (p := .mapper) (by decide)) path _
  | sql => exact grows_sqlFindings options path content
  | schema => exact grows_schemaFindings path content

end Extract

end AppAtlas
