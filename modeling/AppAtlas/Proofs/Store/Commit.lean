import AppAtlas.Proofs.Store.Refresh

/-!
# Batches

A batch notes which identities it touched and which versions of files it dropped and added, and only
these are brought up to date in the graph.  `Batch.Follows` says what the notes have to hold for
that to be enough: between the contributions before the batch and those after it, a path either says
the same or all that it said and says is touched.

* `Batch.Follows.remove`, `Batch.Follows.replace`: each entry of a batch keeps this.
* `Ledger.Records.commit`: so does a committed batch, whether it changed something or not.
* `Graph.Succeeds`: a node keeps the version that introduced it for as long as it is concrete.
-/

namespace AppAtlas

open List Std OrderedMap

variable {κ : Type} {owner : FileKey → String} {t t₀ : Contributions κ}

variable {changed : List (Contribution κ)} {removed : List String} {p : String}

def Contributions.after (t : Contributions κ) (changed : List (Contribution κ))
    (removed : List String) : Contributions κ :=
  changed.foldl (fun t c => t.insert c.path c) (removed.foldl (fun t p => t.erase p) t)

/-- **After a batch a path has what the batch gives last for it**, and if it gives nothing, what
there was, unless the path is removed. -/
theorem Contributions.getElem?_after (t : Contributions κ) (changed : List (Contribution κ))
    (removed : List String) (p : String) : (t.after changed removed)[p]? =
      (changed.reverse.find? (·.path == p)).or (if p ∈ removed then none else t[p]?) := by
  rw [after, getElem?_insertAll, getElem?_eraseAll]

theorem Contributions.after_cases {c : Contribution κ}
    (h : (t.after changed removed)[p]? = some c) :
    c ∈ changed ∨ p ∉ changed.map (·.path) ∧ p ∉ removed ∧ t[p]? = some c := by
  rw [getElem?_after, Option.or_eq_some_iff] at h
  rcases h with h | ⟨hnone, h⟩
  · exact .inl (mem_reverse.mp (mem_of_find?_eq_some h))
  · split at h
    · cases h
    · next hremoved =>
      refine .inr ⟨fun hp => ?_, hremoved, h⟩
      obtain ⟨d, hd, hpath⟩ := mem_map.mp hp
      have := find?_eq_none.mp hnone d (mem_reverse.mpr hd)
      exact this (by simp [hpath])

theorem Contributions.mem_of_after {c : Contribution κ}
    (h : (t.after changed removed)[p]? = some c) : c ∈ changed ∨ t[p]? = some c :=
  (after_cases h).imp_right fun hleft => hleft.2.2

theorem Contributions.after_of_not_mem (hchanged : p ∉ changed.map (·.path))
    (hremoved : p ∉ removed) (t : Contributions κ) : (t.after changed removed)[p]? = t[p]? := by
  have hnone : changed.reverse.find? (·.path == p) = none := by
    rw [find?_eq_none]
    intro d hd hpath
    exact hchanged (mem_map.mpr ⟨d, mem_reverse.mp hd, by simpa using hpath⟩)
  rw [getElem?_after, hnone, Option.none_or, if_neg hremoved]

theorem Contributions.after_of_mem (h : p ∈ changed.map (·.path) ∨ p ∈ removed)
    (t t' : Contributions κ) : (t.after changed removed)[p]? = (t'.after changed removed)[p]? := by
  rw [getElem?_after, getElem?_after]
  rcases h with h | h
  · obtain ⟨c, hc, hpath⟩ := mem_map.mp h
    have hsome : (changed.reverse.find? (·.path == p)).isSome :=
      find?_isSome.mpr ⟨c, mem_reverse.mpr hc, by simpa using hpath⟩
    obtain ⟨d, hd⟩ := Option.isSome_iff_exists.mp hsome
    rw [hd]
    rfl
  · rw [if_pos h, if_pos h]

def Batch.Touched (b : Batch κ) (c : Contribution κ) : Prop :=
  (∀ id ∈ c.nodeIds, id ∈ b.nodes) ∧ ∀ id ∈ c.edgeIds, id ∈ b.edges

theorem Batch.touched_touch (b : Batch κ) (c : Contribution κ) : (b.touch c).Touched c := by
  simp only [Touched, touch, ExtTreeSet.mem_insertMany_list, contains_iff_mem]
  exact ⟨fun id hid => .inr hid, fun id hid => .inr hid⟩

theorem Batch.Touched.touch {b : Batch κ} {c : Contribution κ} (h : b.Touched c)
    (d : Contribution κ) : (b.touch d).Touched c := by
  simp only [Touched, Batch.touch, ExtTreeSet.mem_insertMany_list, contains_iff_mem]
  exact ⟨fun id hid => .inl (h.1 id hid), fun id hid => .inl (h.2 id hid)⟩

/-- **A batch follows the contributions** from those before it to those so far. -/
structure Batch.Follows (b : Batch κ) (owner : FileKey → String) (t₀ t : Contributions κ) :
    Prop where
  records : b.ledger.Records t
  keyed : t.Keyed owner
  /-- A path says the same as at the start, or all that it said and says is touched. -/
  touched : ∀ p : String, t[p]? = t₀[p]? ∨
    ∀ c : Contribution κ, t[p]? = some c ∨ t₀[p]? = some c → b.Touched c
  present : ∀ (p : String) (c : Contribution κ), t[p]? = some c →
    c.key ∈ b.added ∨ t₀[p]? = some c ∧ c.key ∉ b.dropped
  /-- What was in force still is, or has been dropped. -/
  past : ∀ (p : String) (c : Contribution κ), t₀[p]? = some c → t[p]? = some c ∨ c.key ∈ b.dropped
  idle : b.dropped = [] → b.added = [] → t = t₀

theorem Batch.ledger_remove (b : Batch κ) (p : String) :
    (b.remove p).ledger = (b.ledger.detach p).1 := by
  rw [Batch.remove]
  obtain ⟨l, old⟩ := b.ledger.detach p
  cases old <;> rfl

theorem Batch.of_induction [Confidence κ] {P : Ledger κ → Prop} {l : Ledger κ} (hstart : P l)
    (hdetach : ∀ (l : Ledger κ) (p : String), P l → P (l.detach p).1)
    (hattach : ∀ (l : Ledger κ), ∀ c ∈ changed, P l → P ((l.detach c.path).1.attach c)) :
    P (Batch.of l changed removed).ledger := by
  have hremoved : ∀ b : Batch κ, P b.ledger → P (removed.foldl Batch.remove b).ledger := by
    induction removed with
    | nil => exact fun b hb => hb
    | cons p ps ih => exact fun b hb => ih _ (b.ledger_remove p ▸ hdetach _ p hb)
  have hreplace : ∀ (b : Batch κ), ∀ c ∈ changed, P b.ledger → P (b.replace c).ledger := by
    intro b c hc hb
    rw [Batch.replace]
    split
    · exact hb
    · show P ((b.remove c.path).ledger.attach c)
      rw [ledger_remove]
      exact hattach _ c hc hb
  have hchanged : ∀ b : Batch κ, P b.ledger → P (changed.foldl Batch.replace b).ledger := by
    clear hattach
    induction changed with
    | nil => exact fun b hb => hb
    | cons c cs ih =>
      exact fun b hb => ih (fun b d hd => hreplace b d (mem_cons_of_mem c hd)) _
        (hreplace b c mem_cons_self hb)
  exact hchanged _ (hremoved _ hstart)

/-- Only the pass over the nodes writes nodes, definers and versions. -/
theorem Batch.graph_frame [Confidence κ] (b : Batch κ) (base : Graph κ) :
    let withNodes := b.nodes.toList.foldl b.ledger.refreshNode
      { base with version := b.ledger.version }
    (b.graph base).version = withNodes.version ∧ (b.graph base).nodes = withNodes.nodes ∧
      (b.graph base).definers = withNodes.definers ∧
      (b.graph base).introduced = withNodes.introduced := by
  rw [Batch.graph, Ledger.refreshProvenances_frame, Graph.dropProvenances_frame]
  obtain ⟨hversion, hnodes, hdefiners, hintroduced, -⟩ := Ledger.refreshEdges_frame b.ledger
    b.edges.toList (b.nodes.toList.foldl b.ledger.refreshNode
      { base with version := b.ledger.version })
  exact ⟨hversion, hnodes, hdefiners, hintroduced⟩

namespace Batch.Follows

variable {b : Batch κ}

theorem start {l : Ledger κ} (h : l.Records t) (hk : t.Keyed owner) :
    ({ ledger := l } : Batch κ).Follows owner t t where
  records := h
  keyed := hk
  touched _ := .inl rfl
  present _ _ hc := .inr ⟨hc, not_mem_nil⟩
  past _ _ hc := .inl hc
  idle _ _ := rfl

theorem remove (h : b.Follows owner t₀ t) (p : String) :
    (b.remove p).Follows owner t₀ (t.erase p) := by
  obtain ⟨hrec, hold, -⟩ := h.records.detach h.keyed p
  rw [Batch.remove]
  cases hd : t[p]? with
  | none =>
    simp only [hold, hd]
    have hsame := Ledger.erase_of_getElem?_none hd
    rw [hsame] at hrec ⊢
    exact { h with records := hrec }
  | some d =>
    simp only [hold, hd]
    have hmem : ∀ q c, (t.erase p)[q]? = some c → p ≠ q ∧ t[q]? = some c := by
      intro q c hc
      rw [getElem?_erase_of] at hc
      split at hc
      · exact absurd hc (by simp)
      · next hq => exact ⟨hq, hc⟩
    refine ⟨hrec, h.keyed.erase p, ?_, ?_, ?_, ?_⟩
    · intro q
      rcases h.touched q with hq | hq
      · by_cases hpq : p = q
        · -- the contribution taken out is the one there was at the start
          subst hpq
          refine Or.inr fun c hc => ?_
          have hcd : c = d := by
            rcases hc with hc | hc
            · exact absurd rfl (hmem p c hc).1
            · rw [← hq, hd] at hc
              exact (Option.some.inj hc).symm
          subst hcd
          exact Batch.touched_touch _ c
        · refine Or.inl ?_
          rw [getElem?_erase_of, if_neg hpq, hq]
      · refine Or.inr fun c hc => ?_
        have hc' : t[q]? = some c ∨ t₀[q]? = some c := hc.imp (fun hc => (hmem q c hc).2) id
        exact (hq c hc').touch d
    · intro q c hc
      obtain ⟨hpq, hc⟩ := hmem q c hc
      refine (h.present q c hc).imp id fun ⟨hc₀, hnot⟩ => ⟨hc₀, ?_⟩
      rw [mem_append, mem_singleton]
      rintro (hin | hkey)
      · exact hnot hin
      · exact hpq (h.keyed.eq_of_key hd hc hkey.symm).1
    · intro q c hc
      show _ ∨ c.key ∈ b.dropped ++ [d.key]
      rw [mem_append, mem_singleton]
      rcases h.past q c hc with hq | hq
      · by_cases hpq : p = q
        · subst hpq
          rw [hd] at hq
          exact Or.inr (Or.inr (by rw [Option.some.inj hq]))
        · exact Or.inl (by rw [getElem?_erase_of, if_neg hpq, hq])
      · exact Or.inr (Or.inl hq)
    · intro hdropped
      exact absurd hdropped (by simp)

variable [Confidence κ]

theorem replace (h : b.Follows owner t₀ t) {c : Contribution κ} (hc : owner c.key = c.path) :
    (b.replace c).Follows owner t₀ (t.insert c.path c) := by
  rw [Batch.replace, h.records.contributionFor?_eq]
  split
  · next hheld =>
    have hsame : t.insert c.path c = t := by
      apply ExtTreeMap.ext_getElem?
      intro q
      rw [getElem?_insert_of]
      split
      · next hq => rw [← hq, hheld]
      · rfl
    rw [hsame]
    exact h
  · have hr := h.remove c.path
    have hfree : (t.erase c.path)[c.path]? = none := by rw [getElem?_erase_of, if_pos rfl]
    have hinsert : t.insert c.path c = (t.erase c.path).insert c.path c := by
      apply ExtTreeMap.ext_getElem?
      intro q
      rw [getElem?_insert_of, getElem?_insert_of, getElem?_erase_of]
      split <;> rfl
    have hmem : ∀ q d, ((t.erase c.path).insert c.path c)[q]? = some d →
        c.path = q ∧ d = c ∨ (t.erase c.path)[q]? = some d := by
      intro q d hd
      rw [getElem?_insert_of] at hd
      split at hd
      · next hq => exact Or.inl ⟨hq, (Option.some.inj hd).symm⟩
      · exact Or.inr hd
    rw [hinsert]
    generalize b.remove c.path = b' at hr ⊢
    generalize t.erase c.path = t' at hr hfree hmem ⊢
    refine ⟨hr.records.attach hr.keyed hc hfree, hr.keyed.insert hc, ?_, ?_, ?_, ?_⟩
    · intro q
      by_cases hq : c.path = q
      · refine Or.inr fun d hd => ?_
        have hd' : d = c ∨ t₀[q]? = some d := by
          rcases hd with hd | hd
          · rcases hmem q d hd with ⟨-, hdc⟩ | hd
            · exact Or.inl hdc
            · rw [← hq, hfree] at hd
              exact absurd hd (by simp)
          · exact Or.inr hd
        rcases hd' with rfl | hd'
        · exact Batch.touched_touch b' d
        · rcases hr.touched q with hsame | htouched
          · rw [← hsame, ← hq, hfree] at hd'
            exact absurd hd' (by simp)
          · exact (htouched d (Or.inr hd')).touch c
      · rw [getElem?_insert_of, if_neg hq]
        exact (hr.touched q).imp id fun htouched d hd => (htouched d hd).touch c
    · intro q d hd
      show d.key ∈ b'.added ++ [c.key] ∨ _
      rw [mem_append, mem_singleton]
      rcases hmem q d hd with ⟨-, hdc⟩ | hd
      · exact Or.inl (Or.inr (by rw [hdc]))
      · exact (hr.present q d hd).imp Or.inl id
    · intro q d hd
      refine (hr.past q d hd).imp (fun hq => ?_) id
      rw [getElem?_insert_of, if_neg, hq]
      intro hpath
      rw [← hpath, hfree] at hq
      exact absurd hq (by simp)
    · intro _ hadded
      exact absurd hadded (by simp)

theorem of {l : Ledger κ} (h : l.Records t) (hk : t.Keyed owner) {changed : List (Contribution κ)}
    (hc : ∀ c ∈ changed, owner c.key = c.path) (removed : List String) :
    (Batch.of l changed removed).Follows owner t (t.after changed removed) := by
  have hremoved : ∀ (ps : List String) (t' : Contributions κ) (b : Batch κ),
      b.Follows owner t t' →
        (ps.foldl Batch.remove b).Follows owner t (ps.foldl (fun t p => t.erase p) t') := by
    intro ps
    induction ps with
    | nil => exact fun _ _ h' => h'
    | cons p ps ih => exact fun _ _ h' => ih _ _ (h'.remove p)
  have hchanged : ∀ (cs : List (Contribution κ)), (∀ c ∈ cs, owner c.key = c.path) →
      ∀ (t' : Contributions κ) (b : Batch κ), b.Follows owner t t' →
        (cs.foldl Batch.replace b).Follows owner t
          (cs.foldl (fun t c => t.insert c.path c) t') := by
    intro cs
    induction cs with
    | nil => exact fun _ _ _ h' => h'
    | cons c cs ih =>
      intro hcs t' b h'
      exact ih (fun d hd => hcs d (mem_cons_of_mem c hd)) _ _
        (h'.replace (hcs c mem_cons_self))
  exact hchanged changed hc _ _ (hremoved removed t _ (start h hk))

/-! ### The graph of a batch -/

omit [Confidence κ] in
theorem collect_eq {β : Type} (h : b.Follows owner t₀ t) {f : Contribution κ → Option β}
    (hf : ∀ c, b.Touched c → f c = none) : t.collect f = t₀.collect f := by
  apply Contributions.collect_congr
  intro p
  rcases h.touched p with hp | hp
  · rw [hp]
  · have hnone : ∀ o : Option (Contribution κ), (∀ c, o = some c → b.Touched c) →
        o.bind f = none := by
      intro o ho
      cases o with
      | none => rfl
      | some c => exact hf c (ho c rfl)
    rw [hnone _ fun c hc => hp c (.inl hc), hnone _ fun c hc => hp c (.inr hc)]

omit [Confidence κ] in
theorem defining_eq (h : b.Follows owner t₀ t) {id : NodeId} (hid : id ∉ b.nodes) :
    t.defining id = t₀.defining id := by
  refine h.collect_eq fun c hc => ?_
  rw [← Option.not_isSome_iff_eq_none, ← Contribution.mem_nodes_iff]
  exact fun hin => hid (hc.1 id (mem_append_left _ hin))

omit [Confidence κ] in
theorem standingIn_eq (h : b.Follows owner t₀ t) {id : NodeId} (hid : id ∉ b.nodes) :
    t.standingIn id = t₀.standingIn id := by
  refine h.collect_eq fun c hc => ?_
  rw [← Option.not_isSome_iff_eq_none, ← Contribution.mem_placeholders_iff]
  exact fun hin => hid (hc.1 id (mem_append_right _ hin))

omit [Confidence κ] in
theorem parts_eq (h : b.Follows owner t₀ t) {id : EdgeId} (hid : id ∉ b.edges) :
    t.parts id = t₀.parts id := by
  refine h.collect_eq fun c hc => ?_
  rw [← Option.not_isSome_iff_eq_none, ← Contribution.mem_edges_iff]
  exact fun hin => hid (hc.2 id hin)

variable {base : Graph κ}

section

variable (h : b.Follows owner t₀ t)

include h

theorem getElem?_nodes_graph (hg : base.Shows t₀) (id : NodeId) :
    (b.graph base).nodes[id]? = t.node? id := by
  rw [(b.graph_frame base).2.1, Ledger.getElem?_nodes_refresh, h.records.node?_eq]
  split
  · rfl
  · next hid =>
    rw [ExtTreeSet.mem_toList] at hid
    show base.nodes[id]? = _
    rw [hg.nodes, Contributions.node?, Contributions.node?, h.defining_eq hid, h.standingIn_eq hid]

theorem getElem?_definers_graph (hg : base.Shows t₀) (id : NodeId) :
    (b.graph base).definers[id]? = t.definers? id := by
  rw [(b.graph_frame base).2.2.1, Ledger.getElem?_definers_refresh h.records]
  split
  · rfl
  · next hid =>
    rw [ExtTreeSet.mem_toList] at hid
    show base.definers[id]? = _
    rw [hg.definers, Contributions.definers?, Contributions.definers?, h.defining_eq hid]

theorem getElem?_edges_graph (hg : base.Shows t₀) (id : EdgeId) :
    (b.graph base).edges[id]? = t.edge? id := by
  rw [Batch.graph, Ledger.refreshProvenances_frame, Graph.dropProvenances_frame,
    Ledger.getElem?_edges_refresh h.records,
    (Ledger.refreshNodes_frame b.ledger _ _).2.1]
  split
  · rfl
  · next hid =>
    rw [ExtTreeSet.mem_toList] at hid
    show base.edges[id]? = _
    rw [hg.edges, Contributions.edge?, Contributions.edge?, h.parts_eq hid]

theorem lists_graph (hk₀ : t₀.Keyed owner) (hg : base.Shows t₀) :
    (b.graph base).Lists fun p => t[p]? := by
  have hframe := Ledger.refreshNodes_frame b.ledger b.nodes.toList
    { base with version := b.ledger.version }
  have hstart : (b.edges.toList.foldl b.ledger.refreshEdge
      (b.nodes.toList.foldl b.ledger.refreshNode
        { base with version := b.ledger.version })).Lists fun p => t₀[p]? := by
    obtain ⟨-, -, -, -, hprovenance, hfiles⟩ := Ledger.refreshEdges_frame b.ledger b.edges.toList
      (b.nodes.toList.foldl b.ledger.refreshNode { base with version := b.ledger.version })
    exact ⟨fun p => (by rw [hfiles, hframe.2.2.2]; exact hg.files p),
      fun k v => (by rw [hprovenance, hframe.2.2.1]; exact hg.provenance k v)⟩
  have hdropped := hstart.drop hk₀ b.dropped
  -- a file that is still listed after the drops is in force with the version it had
  have hstays : ∀ (p : String) (c : Contribution κ),
      (t₀[p]?.filter fun c => c.key ∉ b.dropped) = some c → t₀[p]? = some c ∧ t[p]? = some c := by
    intro p c hc
    rw [Option.filter_eq_some_iff] at hc
    exact ⟨hc.1, (h.past p c hc.1).resolve_right (by simpa using hc.2)⟩
  have hadded := hdropped.refresh (fun p c hc => hk₀ p c (hstays p c hc).1) h.records h.keyed
    (fun p c c₀ hc hc₀ => by
      rw [(hstays p c₀ hc₀).2] at hc
      rw [Option.some.inj hc])
    b.added
  have hfinal : (fun p : String => (t[p]?.filter fun c => c.key ∈ b.added).or
      (t₀[p]?.filter fun c => c.key ∉ b.dropped)) = fun p => t[p]? := by
    funext p
    cases hc : t[p]? with
    | some c =>
      rcases h.present p c hc with hin | ⟨hc₀, hnot⟩
      · simp [Option.filter_some, hin]
      · by_cases hin : c.key ∈ b.added <;> simp [Option.filter_some, hin, hc₀, hnot]
    | none =>
      cases hc₀ : t₀[p]? with
      | none => rfl
      | some c =>
        have hin : c.key ∈ b.dropped := by
          refine (h.past p c hc₀).resolve_left ?_
          rw [hc]
          simp
        simp [Option.filter_some, hin]
  rw [hfinal] at hadded
  exact hadded

/-- **The graph of a batch shows the contributions after it.** -/
theorem shows (hk₀ : t₀.Keyed owner) (hg : base.Shows t₀) : (b.graph base).Shows t where
  nodes := h.getElem?_nodes_graph hg
  edges := h.getElem?_edges_graph hg
  definers := h.getElem?_definers_graph hg
  files := (h.lists_graph hk₀ hg).files
  provenance := (h.lists_graph hk₀ hg).provenance

end

end Batch.Follows

/-! ### Versions -/

def Graph.Dated (g : Graph κ) : Prop :=
  ∀ id : NodeId, g.introduced[id]?.isSome = g.concreteAt id

/-- **A graph succeeds another** if a node that is concrete in both keeps the version that
introduced it, and one that has become concrete is introduced by the version of the later graph. -/
def Graph.Succeeds (g base : Graph κ) : Prop :=
  ∀ id : NodeId, g.introduced[id]? =
    if g.concreteAt id then
      if base.concreteAt id then base.introduced[id]? else some g.version
    else none

theorem Graph.Succeeds.introduced?_eq {g base : Graph κ} (h : g.Succeeds base) {id : NodeId}
    (hbase : base.concreteAt id) (hg : g.concreteAt id) :
    base.introduced? id = g.introduced? id := by
  rw [introduced?, introduced?, ExtTreeMap.get?_eq_getElem?, ExtTreeMap.get?_eq_getElem?, h id,
    if_pos hg, if_pos hbase]

theorem Graph.dated_empty (v : Nat) : (Graph.empty v : Graph κ).Dated := fun id => by
  simp [Graph.empty, Graph.concreteAt]

theorem Graph.Dated.succeeds_self {g : Graph κ} (h : g.Dated) : g.Succeeds g := by
  intro id
  have hid := h id
  cases hc : g.concreteAt id with
  | true => simp
  | false =>
    rw [hc, Option.isSome_eq_false_iff, Option.isNone_iff_eq_none] at hid
    simp [hid]

theorem Graph.Succeeds.dated {g base : Graph κ} (h : g.Succeeds base) (hb : base.Dated) :
    g.Dated := by
  intro id
  rw [h id]
  cases g.concreteAt id with
  | false => rfl
  | true =>
    have hid := hb id
    cases hc : base.concreteAt id with
    | false => rfl
    | true =>
      rw [hc] at hid
      simpa using hid

variable [Confidence κ] {base : Graph κ}

theorem Batch.graph_version (b : Batch κ) (base : Graph κ) :
    (b.graph base).version = b.ledger.version := by
  rw [(b.graph_frame base).1]
  exact (Ledger.refreshNodes_frame b.ledger _ _).1

/-- **The graph of a batch succeeds the one before.**  A node that the batch touched is set or
dropped together with its version; any other is left alone. -/
theorem Batch.succeeds_graph (b : Batch κ) (hd : base.Dated) : (b.graph base).Succeeds base := by
  intro id
  obtain ⟨-, hnodes, -, hversions⟩ := b.graph_frame base
  have hconcrete : (b.graph base).concreteAt id =
      (if id ∈ b.nodes.toList then b.ledger.node? id else base.nodes[id]?).any (·.isConcrete) := by
    rw [Graph.concreteAt, hnodes, Ledger.getElem?_nodes_refresh]
  have hintroduced := Ledger.getElem?_introduced_refresh b.ledger b.nodes.toList
    { base with version := b.ledger.version } id
  rw [hconcrete, Batch.graph_version, hversions, hintroduced]
  split
  · rfl
  · -- an untouched node is what it was
    have hself := hd.succeeds_self id
    show base.introduced[id]? = if base.concreteAt id then
      if base.concreteAt id then base.introduced[id]? else some b.ledger.version else none
    cases hc : base.concreteAt id with
    | true => rfl
    | false =>
      rw [hc] at hself
      exact hself

/-! ### Commits -/

namespace Ledger

variable {l : Ledger κ} {changed : List (Contribution κ)}

omit [Confidence κ] in
theorem Records.withVersion (h : l.Records t) (v : Nat) : { l with version := v }.Records t :=
  ⟨h.paths, h.held, h.known, h.nodeOwners, h.placeholderOwners, h.edgeOwners⟩

/-- **A commit enters the batch**: the ledger records the contributions after it, and the graph in
force, new or as before, shows them. -/
theorem Records.commit (h : l.Records t) (hk : t.Keyed owner)
    (hc : ∀ c ∈ changed, owner c.key = c.path) (removed : List String) (hg : base.Shows t) :
    (l.commit base changed removed).1.Records (t.after changed removed) ∧
      (t.after changed removed).Keyed owner ∧
      ((l.commit base changed removed).2.getD base).Shows (t.after changed removed) := by
  have hb := Batch.Follows.of h hk hc removed
  rw [Ledger.commit]
  generalize Batch.of l changed removed = b at hb ⊢
  dsimp only
  split
  · next hidle =>
    simp only [Batch.isIdle, Bool.and_eq_true, List.isEmpty_iff] at hidle
    refine ⟨hb.records, hb.keyed, ?_⟩
    rw [hb.idle hidle.1 hidle.2]
    exact hg
  · have hnext : { b with ledger := { b.ledger with version := b.ledger.version + 1 } }.Follows
        owner t (t.after changed removed) :=
      { hb with records := hb.records.withVersion _ }
    exact ⟨hnext.records, hnext.keyed, hnext.shows hk hg⟩

theorem commit_succeeds (l : Ledger κ) (changed : List (Contribution κ)) (removed : List String)
    (hd : base.Dated) : ((l.commit base changed removed).2.getD base).Succeeds base := by
  rw [commit]
  dsimp only
  split
  · exact hd.succeeds_self
  · exact Batch.succeeds_graph _ hd

omit [Confidence κ] in
theorem detach_version (l : Ledger κ) (p : String) : (l.detach p).1.version = l.version := by
  rw [detach]
  cases l.paths.get? p with
  | none => rfl
  | some k =>
    dsimp only
    cases l.contributions.get? k <;> rfl

theorem of_version (l : Ledger κ) (changed : List (Contribution κ)) (removed : List String) :
    (Batch.of l changed removed).ledger.version = l.version :=
  Batch.of_induction (P := fun l' => l'.version = l.version) rfl
    (fun l' p hl => (detach_version l' p).trans hl)
    fun l' c _ hl => (detach_version l' c.path).trans hl

theorem commit_version (l : Ledger κ) (base : Graph κ) (changed : List (Contribution κ))
    (removed : List String) : (l.commit base changed removed).2 = none ∧
        (l.commit base changed removed).1.version = l.version ∨
      ∃ g, (l.commit base changed removed).2 = some g ∧ g.version = l.version + 1 ∧
        (l.commit base changed removed).1.version = l.version + 1 := by
  have hversion := of_version l changed removed
  rw [commit]
  generalize Batch.of l changed removed = b at hversion ⊢
  dsimp only
  split
  · exact .inl ⟨rfl, hversion⟩
  · refine .inr ⟨_, rfl, ?_, ?_⟩
    · rw [Batch.graph_version, hversion]
    · show b.ledger.version + 1 = _
      rw [hversion]

theorem version_of_commit {l : Ledger κ} {removed : List String} {id : NodeId}
    (h : ((l.commit base changed removed).2.getD base).concreteAt id)
    (hbase : base.concreteAt id = false) :
    ((l.commit base changed removed).2.getD base).version = l.version + 1 := by
  rcases commit_version l base changed removed with ⟨hnone, -⟩ | ⟨g, hg, hversion, -⟩
  · rw [hnone, Option.getD_none, hbase] at h
    cases h
  · rw [hg]
    exact hversion

theorem introduced?_of_commits {l : Ledger κ} {changed' : List (Contribution κ)}
    {removed removed' : List String} {g g' : Graph κ}
    (hg : (l.commit base changed removed).2.getD base = g)
    (hg' : (l.commit base changed' removed').2.getD base = g') (hsucceeds : g.Succeeds base)
    (hsucceeds' : g'.Succeeds base) {id : NodeId} (h : g.concreteAt id)
    (h' : g'.concreteAt id) : g.introduced? id = g'.introduced? id := by
  rw [Graph.introduced?, Graph.introduced?, ExtTreeMap.get?_eq_getElem?,
    ExtTreeMap.get?_eq_getElem?, hsucceeds id, hsucceeds' id, if_pos h, if_pos h']
  split
  · rfl
  · next hbase =>
    rw [Bool.not_eq_true] at hbase
    subst hg hg'
    rw [version_of_commit h hbase, version_of_commit h' hbase]

end Ledger

end AppAtlas
