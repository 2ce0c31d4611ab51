import AppAtlas.Proofs.Store.Saved

/-!
# Restoring between calls

A store that is saved and restored shows the same graph, but it does not hold the same: where
several files spoke of one node or one edge, each comes back with what the graph made of them all.
This file says what of it shows after later calls.

Whether a path was touched since decides: one that was given or removed again has the same
contribution with and without restoring, and any other has what it had, or what that came back as.

* `graph_resumes_after_restore`: this is how the two graphs compare after any calls.
* `sharedReading_not_resumed`: two files define one table, and after the first is removed a restored
  store still shows its definition.
-/

namespace AppAtlas

open List Std OrderedMap Contributions

variable {κ : Type}

/-! ### Paths that calls touch -/

/-- Whether a call, when it is entered, decides what a path has. -/
def Store.Call.reaches : Store.Call κ → String → Bool
  | apply c, p => c.path == p
  | applyChanges changed removed _, p => removed.contains p || changed.any (·.path == p)
  | remove path, p => path == p
  | rebuild _ _, _ => true

theorem Store.Call.getElem?_enter_of_not_reaches {call : Store.Call κ} {p : String}
    (h : call.reaches p = false) (t : Contributions κ) : (call.enter t)[p]? = t[p]? := by
  cases call with
  | apply c =>
    have hne : c.path ≠ p := by simpa [reaches] using h
    exact after_of_not_mem (by simpa using hne.symm) not_mem_nil t
  | applyChanges changed removed cancelled =>
    have hnone : p ∉ removed ∧ ∀ c ∈ changed, c.path ≠ p := by simpa [reaches] using h
    exact after_of_not_mem (by simpa using hnone.2) hnone.1 t
  | remove path =>
    have hne : path ≠ p := by simpa [reaches] using h
    exact after_of_not_mem not_mem_nil (by simpa using hne.symm) t
  | rebuild changed cancelled => exact absurd h (by simp [reaches])

theorem Store.Call.getElem?_enter_of_reaches {call : Store.Call κ} {p : String}
    (h : call.reaches p) (t t' : Contributions κ) : (call.enter t)[p]? = (call.enter t')[p]? := by
  cases call with
  | apply c =>
    have heq : c.path = p := by simpa [reaches] using h
    exact after_of_mem (.inl (by simp [heq])) t t'
  | applyChanges changed removed cancelled =>
    have hnamed : p ∈ removed ∨ ∃ c ∈ changed, c.path = p := by simpa [reaches] using h
    exact after_of_mem (by simpa using hnamed.symm) t t'
  | remove path =>
    have heq : path = p := by simpa [reaches] using h
    exact after_of_mem (.inr (by simp [heq])) t t'
  | rebuild changed cancelled => rfl

variable [Confidence κ]

/-- Whether a path was given or removed by some calls. -/
def Store.touchedBy (calls : List (Store.Call κ)) (p : String) : Bool :=
  calls.any fun call => decide call.Enters && call.reaches p

namespace Contributions

variable {calls : List (Store.Call κ)} {p : String}

/-- **A path that is not touched has what it had.** -/
theorem getElem?_enterAll_of_untouched (h : Store.touchedBy calls p = false)
    (t : Contributions κ) : (t.enterAll calls)[p]? = t[p]? := by
  induction calls generalizing t with
  | nil => rfl
  | cons call calls ih =>
    rw [Store.touchedBy, any_cons, Bool.or_eq_false_iff] at h
    rw [enterAll_cons, ih h.2]
    split
    · next henters =>
      have hreaches : call.reaches p = false := by simpa [henters] using h.1
      exact Store.Call.getElem?_enter_of_not_reaches hreaches t
    · rfl

/-- **A path that is touched has the same whatever there was.** -/
theorem getElem?_enterAll_of_touched (h : Store.touchedBy calls p)
    (t t' : Contributions κ) : (t.enterAll calls)[p]? = (t'.enterAll calls)[p]? := by
  induction calls generalizing t t' with
  | nil => exact absurd h (by simp [Store.touchedBy])
  | cons call calls ih =>
    rw [enterAll_cons, enterAll_cons]
    cases hrest : Store.touchedBy calls p with
    | true => exact ih hrest _ _
    | false =>
      -- nothing later touches it, so the call at hand does
      rw [Store.touchedBy, any_cons, ← Store.touchedBy, hrest, Bool.or_false,
        Bool.and_eq_true, decide_eq_true_eq] at h
      rw [getElem?_enterAll_of_untouched hrest, getElem?_enterAll_of_untouched hrest, if_pos h.1,
        if_pos h.1]
      exact Store.Call.getElem?_enter_of_reaches h.2 t t'

end Contributions

variable {owner : FileKey → String} {t u u' : Contributions κ} {s : Store κ}
  {touched : String → Prop}

theorem Store.Holds.resumes_enterAll (hs : s.Holds owner t)
    (hsound : ∀ (p : String) (c : Contribution κ), t[p]? = some c → c.IsSound)
    (calls : List (Store.Call κ)) : s.Resumes t (t.enterAll calls) (s.document.held.enterAll calls)
      fun p => Store.touchedBy calls p = true where
  of_touched p hp := getElem?_enterAll_of_touched hp _ _
  of_untouched p hp := by
    have hp : Store.touchedBy calls p = false := by simpa using hp
    rw [getElem?_enterAll_of_untouched hp,
      getElem?_enterAll_of_untouched hp, hs.getElem?_held_document hsound]
    exact ⟨rfl, rfl⟩

/-! ### Edges -/

/-- Two files told an edge differently, or by the lines of other files, and one of them was touched
since and the other was not. -/
def Contributions.Disputed (t : Contributions κ) (touched : String → Prop) (id : EdgeId) : Prop :=
  ∃ (p q : String) (d d' : Edge κ), (t.parts id)[p]? = some d ∧ ¬touched p ∧
    (t.parts id)[q]? = some d' ∧ touched q ∧
    (d.confidence ≠ d'.confidence ∨ d.ends ≠ d'.ends ∨ (∃ v ∈ d.evidence, v.file ≠ p) ∨
      ∃ v ∈ d'.evidence, v.file ≠ q)

theorem Contributions.agree_of_not_disputed {id : EdgeId} (h : ¬t.Disputed touched id)
    {p q : String} {d d' : Edge κ} (hd : (t.parts id)[p]? = some d) (hp : ¬touched p)
    (hd' : (t.parts id)[q]? = some d') (hq : touched q) :
    d.confidence = d'.confidence ∧ d.ends = d'.ends ∧ (∀ v ∈ d.evidence, v.file = p) ∧
      ∀ v ∈ d'.evidence, v.file = q := by
  refine ⟨?_, ?_, fun v hv => ?_, fun v hv => ?_⟩ <;> by_contra hne <;>
    refine h ⟨p, q, d, d', hd, hp, hd', hq, ?_⟩
  · exact .inl hne
  · exact .inr (.inl hne)
  · exact .inr (.inr (.inl ⟨v, hv, hne⟩))
  · exact .inr (.inr (.inr ⟨v, hv, hne⟩))

namespace Store.Resumes

variable {id : EdgeId} {e : Edge κ}

theorem isSome_parts (h : s.Resumes t u u' touched) (hs : s.Holds owner t)
    (he : t.edge? id = some e) (p : String) :
    ((u'.parts id)[p]?).isSome = ((u.parts id)[p]?).isSome := by
  by_cases hp : touched p
  · rw [h.parts_of_touched hp]
  · obtain ⟨hu, hu'⟩ := h.parts_of_untouched hs he hp
    rw [hu, hu', Option.isSome_map]

theorem ends_parts (h : s.Resumes t u u' touched) (hs : s.Holds owner t)
    (he : t.edge? id = some e) (hnot : ¬t.Disputed touched id) :
    (u'.parts id).values.head?.map Edge.ends = (u.parts id).values.head?.map Edge.ends := by
  cases hhead : (u.parts id).values.head? with
  | none =>
    rw [head?_values_eq_none_iff] at hhead
    have hhead' : (u'.parts id).values.head? = none := by
      refine head?_values_eq_none_iff.mpr fun p => ?_
      rw [← Option.not_isSome_iff_eq_none, h.isSome_parts hs he, hhead p]
      exact Bool.false_ne_true
    rw [hhead']
  | some d =>
    obtain ⟨p, hp, hleast⟩ := head?_values_eq_some_iff.mp hhead
    have hsome : ((u'.parts id)[p]?).isSome := by rw [h.isSome_parts hs he, hp]; rfl
    obtain ⟨d', hd'⟩ := Option.isSome_iff_exists.mp hsome
    have hhead' : (u'.parts id).values.head? = some d' := by
      refine head?_values_eq_some_iff.mpr ⟨p, hd', fun q b hb => ?_⟩
      have hq : ((u.parts id)[q]?).isSome := by rw [← h.isSome_parts hs he, hb]; rfl
      obtain ⟨b', hb'⟩ := Option.isSome_iff_exists.mp hq
      exact hleast q b' hb'
    rw [hhead', Option.map_some, Option.map_some, Option.some.injEq]
    by_cases htouched : touched p
    · rw [h.parts_of_touched htouched, hp] at hd'
      rw [Option.some.inj hd']
    · obtain ⟨hu, hu'⟩ := h.parts_of_untouched hs he htouched
      have hpart : (t.parts id)[p]? = some d := hu.symm.trans hp
      rw [hu', hpart, Option.map_some] at hd'
      cases hd'
      show e.ends = d.ends
      -- the saved edge has its ends from the first path of all
      have hends := Edge.ends_of_join ((t.edge?_eq_join id).symm.trans he)
      obtain ⟨d₀, hd₀, hd₀e⟩ := Option.map_eq_some_iff.mp hends
      obtain ⟨q, hq, hfirst⟩ := head?_values_eq_some_iff.mp hd₀
      rw [← hd₀e]
      by_cases hqt : touched q
      · exact (agree_of_not_disputed hnot hpart htouched hq hqt).2.1.symm
      · have hqu : (u.parts id)[q]? = some d₀ := (h.parts_of_untouched hs he hqt).1.trans hq
        have hpq : p = q := by
          have hle := hleast q d₀ hqu
          have hge := hfirst p d hpart
          exact LawfulEqOrd.eq_of_compare (OrientedCmp.isLE_antisymm hle hge)
        rw [hpq, hq] at hpart
        rw [Option.some.inj hpart]

/-- The greatest confidence is the same: what comes back has the greatest that was saved, and if the
path that gave it was touched, the others had given it too. -/
theorem greatest?_parts [Confidence.Linear κ] (h : s.Resumes t u u' touched) (hs : s.Holds owner t)
    (hunit : ∀ d ∈ (u.parts id).values, Confidence.isUnit d.confidence)
    (hunit' : Confidence.isUnit e.confidence) (he : t.edge? id = some e)
    (hnot : ¬t.Disputed touched id) :
    Confidence.greatest? ((u'.parts id).values.map (·.confidence)) =
      Confidence.greatest? ((u.parts id).values.map (·.confidence)) := by
  have hgreatest := Edge.greatest?_of_join ((t.edge?_eq_join id).symm.trans he)
  refine Confidence.greatest?_eq (fun x hx => ?_) (fun y hy => ?_) (fun x hx => ?_) fun y hy => ?_
  · obtain ⟨d, hd, rfl⟩ := mem_map.mp hx
    rcases (h.mem_parts hs he).mp hd with ⟨p, -, hp⟩ | ⟨p, -, -, rfl⟩
    · exact hunit d (mem_values.mpr ⟨p, hp⟩)
    · exact hunit'
  · obtain ⟨d, hd, rfl⟩ := mem_map.mp hy
    exact hunit d hd
  · -- a part that came back is matched by the one that gave its confidence
    obtain ⟨d, hd, rfl⟩ := mem_map.mp hx
    rcases (h.mem_parts hs he).mp hd with ⟨p, -, hp⟩ | ⟨p, hp, hsome, rfl⟩
    · exact ⟨_, mem_map_of_mem (mem_values.mpr ⟨p, hp⟩), Confidence.Ordered.lt_irrefl _⟩
    · obtain ⟨d₀, hd₀⟩ := Option.isSome_iff_exists.mp hsome
      have hin : d₀ ∈ (u.parts id).values :=
        mem_values.mpr ⟨p, (h.parts_of_untouched hs he hp).1.trans hd₀⟩
      obtain ⟨d₁, hd₁, hd₁e⟩ := mem_map.mp (Confidence.mem_of_greatest? hgreatest)
      obtain ⟨q, hq⟩ := mem_values.mp hd₁
      show ∃ y ∈ _, ¬y < e.confidence
      rw [← hd₁e]
      by_cases hqt : touched q
      · refine ⟨_, mem_map_of_mem hin, ?_⟩
        rw [(agree_of_not_disputed hnot hd₀ hp hq hqt).1]
        exact Confidence.Ordered.lt_irrefl _
      · exact ⟨_, mem_map_of_mem
          (mem_values.mpr ⟨q, (h.parts_of_untouched hs he hqt).1.trans hq⟩),
          Confidence.Ordered.lt_irrefl _⟩
  · obtain ⟨d, hd, rfl⟩ := mem_map.mp hy
    obtain ⟨p, hp⟩ := mem_values.mp hd
    by_cases hpt : touched p
    · exact ⟨_, mem_map_of_mem ((h.mem_parts hs he).mpr (.inl ⟨p, hpt, hp⟩)),
        Confidence.Ordered.lt_irrefl _⟩
    · have hpart : (t.parts id)[p]? = some d := (h.parts_of_untouched hs he hpt).1.symm.trans hp
      refine ⟨_, mem_map_of_mem ((h.mem_parts hs he).mpr
        (.inr ⟨p, hpt, by rw [hpart]; rfl, rfl⟩)), ?_⟩
      exact Confidence.not_greatest?_lt hgreatest _
        (mem_map_of_mem (mem_values.mpr ⟨p, hpart⟩))

/-- The evidence is the same: what a path that was not touched came back with is its own, or goes
back to paths that were not touched either. -/
theorem mem_evidence_parts (h : s.Resumes t u u' touched) (hs : s.Holds owner t)
    (he : t.edge? id = some e) (hnot : ¬t.Disputed touched id) (v : Evidence) :
    (∃ d ∈ (u'.parts id).values, v ∈ d.evidence) ↔ ∃ d ∈ (u.parts id).values, v ∈ d.evidence := by
  have hid : e.id = id := hs.id_of_edge? he
  have hevidence := Edge.mem_evidence_of_join ((t.edge?_eq_join id).symm.trans he) (v := v)
  constructor
  · rintro ⟨d, hd, hv⟩
    rcases (h.mem_parts hs he).mp hd with ⟨p, -, hp⟩ | ⟨p, hp, hsome, rfl⟩
    · exact ⟨d, mem_values.mpr ⟨p, hp⟩, hv⟩
    · obtain ⟨hve, hfile⟩ := Document.mem_evidence_ownPart.mp hv
      obtain ⟨d₁, hd₁, hvd₁⟩ := hevidence.mp hve
      obtain ⟨q, hq⟩ := mem_values.mp hd₁
      by_cases hqt : touched q
      · -- it would be the evidence of the path that was touched, which is not handed out
        obtain ⟨d₀, hd₀⟩ := Option.isSome_iff_exists.mp hsome
        have hvq := (agree_of_not_disputed hnot hd₀ hp hq hqt).2.2.2 v hvd₁
        rcases hfile with hvp | ⟨-, hforeign⟩
        · exact absurd (hvp.symm.trans hvq ▸ hqt) hp
        · rw [hvq, hid, hs.mem_edgeOwners_document, hq] at hforeign
          exact absurd rfl hforeign
      · exact ⟨d₁, mem_values.mpr ⟨q, (h.parts_of_untouched hs he hqt).1.trans hq⟩, hvd₁⟩
  · rintro ⟨d, hd, hv⟩
    obtain ⟨p, hp⟩ := mem_values.mp hd
    by_cases hpt : touched p
    · exact ⟨d, (h.mem_parts hs he).mpr (.inl ⟨p, hpt, hp⟩), hv⟩
    · have hpart : (t.parts id)[p]? = some d := (h.parts_of_untouched hs he hpt).1.symm.trans hp
      have hve : v ∈ e.evidence := hevidence.mpr ⟨d, mem_values.mpr ⟨p, hpart⟩, hv⟩
      have howner : p ∈ s.document.edgeOwners e.id := by
        rw [hid, hs.mem_edgeOwners_document, hpart]
        rfl
      obtain ⟨q, hq, hvq⟩ := (Document.exists_mem_ownPart howner).mpr hve
      rw [hid, hs.mem_edgeOwners_document] at hq
      by_cases hqt : touched q
      · obtain ⟨d₁, hd₁⟩ := Option.isSome_iff_exists.mp hq
        have hvp := (agree_of_not_disputed hnot hpart hpt hd₁ hqt).2.2.1 v hv
        refine ⟨_, (h.mem_parts hs he).mpr (.inr ⟨p, hpt, by rw [hpart]; rfl, rfl⟩), ?_⟩
        exact Document.mem_evidence_ownPart.mpr ⟨hve, .inl hvp⟩
      · exact ⟨_, (h.mem_parts hs he).mpr (.inr ⟨q, hqt, hq, rfl⟩), hvq⟩

/-- **An edge that is not disputed comes out the same.** -/
theorem edge?_eq [Confidence.Linear κ] (h : s.Resumes t u u' touched) (hs : s.Holds owner t)
    (hsound : ∀ (p : String) (c : Contribution κ), t[p]? = some c → c.IsSound)
    (hsound' : ∀ (p : String) (c : Contribution κ), u[p]? = some c → c.IsSound)
    (hnot : ¬t.Disputed touched id) : u'.edge? id = u.edge? id := by
  rw [edge?_eq_join, edge?_eq_join]
  cases he : t.edge? id with
  | none => rw [h.parts_of_none hs he]
  | some e =>
    exact Edge.join_congr (h.ends_parts hs he hnot)
      (h.greatest?_parts hs (fun d hd => isUnit_of_mem_parts hsound' hd)
        (isUnit_of_edge? hsound he) he hnot)
      (h.mem_evidence_parts hs he hnot)

end Store.Resumes

/-! ### Graphs after restoring -/

/-- **A graph after restoring**, compared with the graph without.  `saved` is the graph that was
saved, `t` what was in force then, and `touched` tells which paths were given or removed since. -/
structure Graph.Resumes (g direct saved : Graph κ) (t : Contributions κ) (touched : String → Bool) :
    Prop where
  provenance : g.provenance = direct.provenance
  files : g.files = direct.files
  /-- A node is the same if the first path that defines it was touched since, or if none does.
  Otherwise it is the node that was saved. -/
  node : ∀ id : NodeId, g.node? id =
    if (direct.definersOf id).head?.any (!touched ·) then saved.node? id else direct.node? id
  edge : ∀ id : EdgeId, g.edge? id = direct.edge? id ∨ t.Disputed (touched · = true) id

theorem Graph.Shows.head?_definersOf {g : Graph κ} (h : g.Shows t) {id : NodeId} {p : String}
    (hp : (g.definersOf id).head? = some p) : (∃ c, t[p]? = some c ∧ (c.node? id).isSome) ∧
      ∀ q c, t[q]? = some c → (c.node? id).isSome → (compare p q).isLE := by
  obtain ⟨hsorted, hmem⟩ := h.mem_definersOf id
  cases hlist : g.definersOf id with
  | nil => rw [hlist] at hp; cases hp
  | cons p' ps =>
    rw [hlist] at hp hsorted hmem
    obtain rfl : p' = p := by simpa using hp
    refine ⟨(hmem p').mp mem_cons_self, fun q c hc hsome => ?_⟩
    rcases mem_cons.mp ((hmem q).mpr ⟨c, hc, hsome⟩) with rfl | hq
    · exact ReflCmp.isLE_rfl
    · rw [(pairwise_cons.mp hsorted).1 q hq]
      rfl

/-- **What a store that was saved and restored shows after some calls.** -/
theorem Store.Holds.graph_resumes [Confidence.Linear κ] (hs : s.Holds owner t)
    (hsound : ∀ (p : String) (c : Contribution κ), t[p]? = some c → c.IsSound)
    (calls : List (Store.Call κ)) (hc : ∀ call ∈ calls, ∀ c ∈ call.given, owner c.key = c.path) :
    (s.document.store.runAll calls).graph.Resumes (s.runAll calls).graph s.graph t
      (Store.touchedBy calls) := by
  have hdirect := (hs.runAll hc).shows
  have hrestored := (hs.store_document.runAll hc).shows
  have hresumes := hs.resumes_enterAll hsound calls
  obtain ⟨hprovenance, hfiles⟩ := hresumes.provenance_eq hs hsound hdirect hrestored
  have hsound' := forall_enterAll calls (fun _ h => h) hsound
  refine ⟨hprovenance, hfiles, fun id => ?_, fun id => ?_⟩
  · have hnode : (s.runAll calls).graph.node? id = (t.enterAll calls).node? id := hdirect.nodes id
    have hnode' : (s.document.store.runAll calls).graph.node? id =
        (s.document.held.enterAll calls).node? id := hrestored.nodes id
    have hsaved : s.graph.node? id = t.node? id := hs.shows.nodes id
    rw [hnode, hnode', hsaved]
    cases hfirst : ((s.runAll calls).graph.definersOf id).head? with
    | none =>
      -- no file defines the node
      refine hresumes.node?_of_none hs fun q d hd => ?_
      refine Option.not_isSome_iff_eq_none.mp fun hsome => ?_
      have hmem := ((hdirect.mem_definersOf id).2 q).mpr ⟨d, hd, hsome⟩
      rw [head?_eq_none_iff.mp hfirst] at hmem
      cases hmem
    | some p =>
      obtain ⟨⟨c, hc, hsome⟩, hleast⟩ := hdirect.head?_definersOf hfirst
      obtain ⟨n, hn⟩ := Option.isSome_iff_exists.mp hsome
      obtain ⟨htouched, huntouched⟩ := hresumes.node?_of_first hs hc hn hleast
      cases hp : Store.touchedBy calls p with
      | true =>
        rw [htouched hp, node?_of_first hc hn hleast]
        simp [hp]
      | false =>
        rw [huntouched (by simp [hp])]
        simp [hp]
  · refine or_iff_not_imp_right.mpr fun hnot => ?_
    have hedge : (s.runAll calls).graph.edge? id = (t.enterAll calls).edge? id := hdirect.edges id
    have hedge' : (s.document.store.runAll calls).graph.edge? id =
        (s.document.held.enterAll calls).edge? id := hrestored.edges id
    rw [hedge, hedge']
    exact hresumes.edge?_eq hs hsound hsound' hnot

/-- **After a store was saved and restored, the same calls give the same files and provenance.**
A node can differ only if the first file that defines it was not touched since: it is then the node
that was saved.  An edge can differ only if a file that was touched since and one that was not had
told it differently. -/
theorem graph_resumes_after_restore [Confidence.Linear κ] (calls more : List (Store.Call κ))
    (hkeys : ∀ c ∈ (calls ++ more).flatMap (·.given), ∀ d ∈ (calls ++ more).flatMap (·.given),
      c.key = d.key → c.path = d.path) :
    ∃ s₀ : Store κ, Store.restore (Store.afterCalls calls).document = .ok s₀ ∧
      (s₀.runAll more).graph.Resumes ((Store.afterCalls calls).runAll more).graph
        (Store.afterCalls calls).graph (survivors calls) (Store.touchedBy more) := by
  obtain ⟨owner, howner⟩ := exists_owner hkeys
  have hgiven : ∀ call ∈ calls ++ more, ∀ c ∈ call.given, owner c.key = c.path :=
    fun call hcall c hc => howner c (List.mem_flatMap.mpr ⟨call, hcall, hc⟩)
  obtain ⟨hholds, hsound⟩ := Store.holds_afterCalls fun call hcall =>
    hgiven call (List.mem_append_left more hcall)
  exact ⟨_, hholds.restore_document hsound, hholds.graph_resumes hsound more fun call hcall =>
    hgiven call (List.mem_append_right calls hcall)⟩

theorem sharedReading_resumes_after_restore :
    ∃ s₀ : Store Float, Store.restore (Store.afterCalls sharedReading).document = .ok s₀ ∧
      (s₀.runAll [.remove "b.sql"]).graph.Resumes
        ((Store.afterCalls sharedReading).runAll [.remove "b.sql"]).graph
        (Store.afterCalls sharedReading).graph (survivors sharedReading)
        (Store.touchedBy [(.remove "b.sql" : Store.Call Float)]) :=
  graph_resumes_after_restore sharedReading [.remove "b.sql"] (by decide)

/-- **Two files that define one table**: when the first is removed, a store that was saved and
restored still shows its definition, and no longer the same as the store that was not. -/
theorem sharedReading_not_resumed :
    ∃ s₀ : Store Float, Store.restore (Store.afterCalls sharedReading).document = .ok s₀ ∧
      (s₀.runAll [.remove "a.sql"]).graph.sameContent
        ((Store.afterCalls sharedReading).runAll [.remove "a.sql"]).graph = false := by
  have hkeys : ∀ c ∈ sharedReading.flatMap (·.given), ∀ d ∈ sharedReading.flatMap (·.given),
      c.key = d.key → c.path = d.path := by decide
  obtain ⟨owner, howner⟩ := exists_owner hkeys
  obtain ⟨hholds, hsound⟩ := Store.holds_afterCalls fun call hcall c hc =>
    howner c (List.mem_flatMap.mpr ⟨call, hcall, hc⟩)
  have hresumes := hholds.graph_resumes hsound [.remove "a.sql"] fun call hcall c hc => by
    rw [List.mem_singleton.mp hcall] at hc
    exact absurd hc List.not_mem_nil
  refine ⟨_, hholds.restore_document hsound, ?_⟩
  -- the table is left to a file that was not touched, so it stays as it was saved
  have htable := hresumes.node readingEdge.target
  rw [if_pos (by decide +kernel)] at htable
  have hdiffers : (Store.afterCalls sharedReading).graph.node? readingEdge.target ≠
      ((Store.afterCalls sharedReading).runAll [.remove "a.sql"]).graph.node?
        readingEdge.target := by
    decide +kernel
  rw [Graph.sameContent, decide_eq_false_iff_not]
  rintro ⟨hnodes, -⟩
  refine hdiffers (htable.symm.trans ?_)
  rw [Graph.node?, Graph.node?, hnodes]

end AppAtlas
