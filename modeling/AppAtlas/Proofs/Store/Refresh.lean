import AppAtlas.Proofs.Confidence
import AppAtlas.Proofs.Store.Ledger

/-!
# Bringing a graph up to date

After a batch the ledger recomputes the nodes and edges that the batch touched, one after the other,
and then replaces the provenance of the versions that came and went.  Here is what each of these
passes leaves in the graph, for any list of identities and any graph to start from:

* `getElem?_nodes_refresh`, `getElem?_definers_refresh`, `getElem?_introduced_refresh`,
  `getElem?_edges_refresh`: a refreshed identity has what the contributions make of it, any other
  has what it had.
* `Lists.drop`, `Lists.refresh`: the files that the provenance lists are those before without the
  dropped versions and with the added ones.
-/

namespace AppAtlas

open List Std OrderedMap

variable {κ : Type} {l : Ledger κ} {t : Contributions κ}

def Graph.concreteAt (g : Graph κ) (id : NodeId) : Bool := g.nodes[id]?.any (·.isConcrete)

namespace Ledger

/-! ### One node -/

theorem id_of_node? {id : NodeId} {n : Node} (h : l.node? id = some n) : n.id = id := by
  rw [node?, Option.orElse_eq_orElse, Option.orElse_eq_or, Option.or_eq_some_iff] at h
  rcases h with h | ⟨-, h⟩
  · obtain ⟨k, -, hk⟩ := exists_of_findSome?_eq_some h
    obtain ⟨c, -, hc⟩ := Option.bind_eq_some_iff.mp hk
    exact Contribution.id_of_node? hc
  · obtain ⟨k, -, hk⟩ := exists_of_findSome?_eq_some h
    obtain ⟨c, -, hc⟩ := Option.bind_eq_some_iff.mp hk
    exact Contribution.id_of_placeholder? hc

theorem getElem?_nodes_refreshNode (l : Ledger κ) (g : Graph κ) (id i : NodeId) :
    (l.refreshNode g id).nodes[i]? = if id = i then l.node? id else g.nodes[i]? := by
  rw [refreshNode]
  cases hn : l.node? id with
  | none => exact getElem?_erase_of g.nodes id i
  | some n =>
    show (g.nodes.insert n.id n)[i]? = _
    rw [id_of_node? hn, getElem?_insert_of]

theorem getElem?_definers_refreshNode (h : l.Records t) (g : Graph κ) (id i : NodeId) :
    (l.refreshNode g id).definers[i]? = if id = i then t.definers? id else g.definers[i]? := by
  rw [refreshNode, h.node?_eq]
  cases hn : t.node? id with
  | none =>
    -- without a node there is no definition
    have hnone : t.definers? id = none := by
      rw [Contributions.node?, Option.or_eq_none_iff] at hn
      rw [Contributions.definers?, if_pos]
      rw [ExtTreeMap.isEmpty_iff]
      exact Contributions.collect_eq_empty_iff.mpr
        (Contributions.head?_collect_eq_none_iff.mp hn.1)
    rw [hnone]
    exact getElem?_erase_of g.definers id i
  | some n =>
    have hdef : (l.nodeOwners.pathsOf id).isEmpty = (t.defining id).isEmpty := by
      rw [h.pathsOf_eq, Bool.eq_iff_iff, ExtTreeSet.isEmpty_iff, ExtTreeMap.isEmpty_iff,
        ExtTreeSet.ofList_eq_empty_iff, ExtTreeMap.keys_eq_nil_iff]
    show (if (l.nodeOwners.pathsOf id).isEmpty then g.definers.erase n.id
      else g.definers.insert n.id (l.nodeOwners.pathsOf id))[i]? = _
    rw [hdef, Contributions.id_of_node? hn, Contributions.definers?]
    split
    · exact getElem?_erase_of g.definers id i
    · rw [getElem?_insert_of, h.pathsOf_eq]

theorem getElem?_introduced_refreshNode (l : Ledger κ) (g : Graph κ) (id i : NodeId) :
    (l.refreshNode g id).introduced[i]? = if id = i then if (l.node? id).any (·.isConcrete) then
          if g.concreteAt id then g.introduced[i]? else some g.version else none
      else g.introduced[i]? := by
  rw [refreshNode]
  cases hn : l.node? id with
  | none => exact getElem?_erase_of g.introduced id i
  | some n =>
    have hnid := id_of_node? hn
    show (if n.isConcrete then
        if (g.node? n.id).any (·.isConcrete) then g.introduced
        else g.introduced.insert n.id g.version
      else g.introduced.erase n.id)[i]? = _
    rw [hnid, Option.any_some, Graph.concreteAt, Graph.node?, ExtTreeMap.get?_eq_getElem?]
    split
    · split
      · split <;> rfl
      · rw [getElem?_insert_of]
    · rw [getElem?_erase_of]

/-! ### A list of nodes -/

theorem getElem?_nodes_refresh (l : Ledger κ) (ids : List NodeId) (g : Graph κ) (i : NodeId) :
    (ids.foldl l.refreshNode g).nodes[i]? = if i ∈ ids then l.node? i else g.nodes[i]? :=
  foldl_of_step (fun g i => g.nodes[i]?) (fun i _ => l.node? i) (fun _ _ => rfl)
    (getElem?_nodes_refreshNode l) ids g i

theorem getElem?_definers_refresh (h : l.Records t) (ids : List NodeId) (g : Graph κ) (i : NodeId) :
    (ids.foldl l.refreshNode g).definers[i]? = if i ∈ ids then t.definers? i else g.definers[i]? :=
  foldl_of_step (fun g i => g.definers[i]?) (fun i _ => t.definers? i) (fun _ _ => rfl)
    (getElem?_definers_refreshNode h) ids g i

theorem refreshNode_frame (l : Ledger κ) (g : Graph κ) (id : NodeId) :
    (l.refreshNode g id).version = g.version ∧ (l.refreshNode g id).edges = g.edges ∧
      (l.refreshNode g id).provenance = g.provenance ∧ (l.refreshNode g id).files = g.files := by
  rw [refreshNode]
  cases l.node? id <;> exact ⟨rfl, rfl, rfl, rfl⟩

theorem refreshNodes_frame (l : Ledger κ) (ids : List NodeId) (g : Graph κ) :
    (ids.foldl l.refreshNode g).version = g.version ∧ (ids.foldl l.refreshNode g).edges = g.edges ∧
      (ids.foldl l.refreshNode g).provenance = g.provenance ∧
      (ids.foldl l.refreshNode g).files = g.files := by
  induction ids generalizing g with
  | nil => exact ⟨rfl, rfl, rfl, rfl⟩
  | cons id ids ih =>
    obtain ⟨hv, he, hp, hf⟩ := ih (l.refreshNode g id)
    obtain ⟨hv', he', hp', hf'⟩ := refreshNode_frame l g id
    rw [foldl_cons]
    exact ⟨hv.trans hv', he.trans he', hp.trans hp', hf.trans hf'⟩

/-- **A node that becomes concrete is introduced by the graph's version**, one that stays concrete
keeps the version it had, and a stub has none. -/
theorem getElem?_introduced_refresh (l : Ledger κ) (ids : List NodeId) (g : Graph κ) (i : NodeId) :
    (ids.foldl l.refreshNode g).introduced[i]? = if i ∈ ids then
        if (l.node? i).any (·.isConcrete) then
          if g.concreteAt i then g.introduced[i]? else some g.version else none
      else g.introduced[i]? := by
  induction ids generalizing g with
  | nil => rw [foldl_nil, if_neg not_mem_nil]
  | cons id ids ih =>
    rw [foldl_cons, ih, getElem?_introduced_refreshNode, (refreshNode_frame l g id).1,
      Graph.concreteAt, getElem?_nodes_refreshNode]
    by_cases hi : id = i
    · subst hi
      simp only [mem_cons, true_or, if_true]
      -- refreshed once more, the node is what it was refreshed to
      cases (l.node? id).any (·.isConcrete) <;> simp
    · simp only [mem_cons, Ne.symm hi, false_or, if_neg hi]
      rfl

/-! ### Edges -/

variable [Confidence κ]

theorem id_of_edge? {id : EdgeId} {e : Edge κ} (h : t.edge? id = some e) : e.id = id := by
  rw [Contributions.edge?] at h
  split at h
  · cases h
  · next first others hparts =>
    cases h
    have hmem : first ∈ (t.parts id).values := by rw [hparts]; exact mem_cons_self
    obtain ⟨p, hp⟩ := mem_values.mp hmem
    rw [Contributions.parts, Contributions.getElem?_collect, Option.bind_eq_some_iff] at hp
    obtain ⟨c, -, hc⟩ := hp
    exact (Edge.foldl_merge_ends others first).1.trans (Contribution.id_of_edge? hc)

theorem getElem?_edges_refreshEdge (h : l.Records t) (g : Graph κ) (id i : EdgeId) :
    (l.refreshEdge g id).edges[i]? = if id = i then t.edge? id else g.edges[i]? := by
  rw [refreshEdge, h.edge?_eq]
  cases he : t.edge? id with
  | none => exact getElem?_erase_of g.edges id i
  | some e =>
    show (g.edges.insert e.id e)[i]? = _
    rw [id_of_edge? he, getElem?_insert_of]

theorem getElem?_edges_refresh (h : l.Records t) (ids : List EdgeId) (g : Graph κ) (i : EdgeId) :
    (ids.foldl l.refreshEdge g).edges[i]? = if i ∈ ids then t.edge? i else g.edges[i]? :=
  foldl_of_step (fun g i => g.edges[i]?) (fun i _ => t.edge? i) (fun _ _ => rfl)
    (getElem?_edges_refreshEdge h) ids g i

theorem refreshEdges_frame (l : Ledger κ) (ids : List EdgeId) (g : Graph κ) :
    (ids.foldl l.refreshEdge g).version = g.version ∧ (ids.foldl l.refreshEdge g).nodes = g.nodes ∧
      (ids.foldl l.refreshEdge g).definers = g.definers ∧
      (ids.foldl l.refreshEdge g).introduced = g.introduced ∧
      (ids.foldl l.refreshEdge g).provenance = g.provenance ∧
      (ids.foldl l.refreshEdge g).files = g.files := by
  induction ids generalizing g with
  | nil => exact ⟨rfl, rfl, rfl, rfl, rfl, rfl⟩
  | cons id ids ih =>
    rw [foldl_cons, refreshEdge]
    cases l.edge? id with
    | none => exact ih (g.dropEdge id)
    | some e => exact ih (g.putEdge e)

end Ledger

/-! ### Provenance -/

/-- **A graph lists files** if its provenance and its paths are those of the files. -/
structure Graph.Lists (g : Graph κ) (m : String → Option (Contribution κ)) : Prop where
  files : ∀ p : String, g.files[p]? = (m p).map (·.key)
  provenance : ∀ (k : FileKey) (v : Provenance), g.provenance[k]? = some v ↔
    ∃ (p : String) (c : Contribution κ), m p = some c ∧ c.key = k ∧ c.provenance = v

theorem Graph.dropProvenances_frame (ks : List FileKey) (g : Graph κ) :
    ks.foldl Graph.dropProvenance g = { g with
        provenance := (ks.foldl Graph.dropProvenance g).provenance
        files := (ks.foldl Graph.dropProvenance g).files } := by
  induction ks generalizing g with
  | nil => rfl
  | cons k ks ih =>
    rw [foldl_cons, ih, Graph.dropProvenance]
    cases g.provenance.get? k <;> rfl

theorem Ledger.refreshProvenances_frame (l : Ledger κ) (ks : List FileKey) (g : Graph κ) :
    ks.foldl l.refreshProvenance g = { g with
        provenance := (ks.foldl l.refreshProvenance g).provenance
        files := (ks.foldl l.refreshProvenance g).files } := by
  induction ks generalizing g with
  | nil => rfl
  | cons k ks ih =>
    rw [foldl_cons, ih, Ledger.refreshProvenance]
    cases l.contributions.get? k <;> rfl

namespace Graph.Lists

variable {g : Graph κ} {m : String → Option (Contribution κ)} {owner : FileKey → String}

section

variable (h : g.Lists m) (hm : ∀ p c, m p = some c → c.path = p ∧ owner c.key = p)

include h hm

theorem dropProvenance (k : FileKey) :
    (g.dropProvenance k).Lists fun p => (m p).filter fun c => c.key ≠ k := by
  have hkey : ∀ p c, m p = some c → c.key = k → g.provenance[k]? = some c.provenance :=
    fun p c hc hk => (h.provenance k _).mpr ⟨p, c, hc, hk, rfl⟩
  cases hv : g.provenance[k]? with
  | none =>
    have hstay : g.dropProvenance k = g := by
      rw [Graph.dropProvenance, ExtTreeMap.get?_eq_getElem?, hv]
    have hfilter : (fun p => (m p).filter fun c => c.key ≠ k) = m := by
      funext p
      cases hc : m p with
      | none => rfl
      | some c =>
        have hne : c.key ≠ k := fun hk => by
          have := hkey p c hc hk
          rw [hv] at this
          cases this
        rw [Option.filter_some, if_pos (decide_eq_true hne)]
    rw [hstay, hfilter]
    exact h
  | some v =>
    obtain ⟨q, d, hd, hdk, hdv⟩ := (h.provenance k v).mp hv
    obtain ⟨hdpath, hdowner⟩ := hm q d hd
    have hvpath : v.path = q := by rw [← hdv]; exact hdpath
    have hfile : g.files[q]? = some k := by rw [h.files q, hd, Option.map_some, hdk]
    have hdrop : g.dropProvenance k =
        { g with provenance := g.provenance.erase k, files := g.files.erase q } := by
      rw [Graph.dropProvenance, ExtTreeMap.get?_eq_getElem?, hv]
      simp only [hvpath, Graph.fileKey?, ExtTreeMap.get?_eq_getElem?, hfile, if_true]
    -- the dropped version is of the path `q`, and of no other
    have howner : ∀ p c, m p = some c → (c.key = k ↔ p = q) := by
      intro p c hc
      constructor
      · intro hk
        rw [← (hm p c hc).2, hk, ← hdk, hdowner]
      · intro hp
        subst hp
        rw [hd] at hc
        rw [← Option.some.inj hc, hdk]
    rw [hdrop]
    constructor
    · intro p
      show (g.files.erase q)[p]? = _
      rw [getElem?_erase_of, h.files p]
      cases hc : m p with
      | none => simp
      | some c =>
        by_cases hk : c.key = k
        · simp [Option.filter_some, hk, (howner p c hc).mp hk]
        · have hq : q ≠ p := fun hq => hk ((howner p c hc).mpr hq.symm)
          simp [Option.filter_some, hk, hq]
    · intro k' v'
      show (g.provenance.erase k)[k']? = some v' ↔ _
      rw [getElem?_erase_of]
      constructor
      · intro hk'
        split at hk'
        · cases hk'
        · next hne =>
          obtain ⟨p, c, hc, hck, hcv⟩ := (h.provenance k' v').mp hk'
          refine ⟨p, c, ?_, hck, hcv⟩
          rw [hc, Option.filter_some, if_pos]
          rw [hck]
          exact decide_eq_true (Ne.symm hne)
      · rintro ⟨p, c, hc, hck, hcv⟩
        rw [Option.filter_eq_some_iff] at hc
        have hne : k ≠ k' := fun he => by
          have := hc.2
          rw [hck, he] at this
          simp at this
        rw [if_neg hne]
        exact (h.provenance k' v').mpr ⟨p, c, hc.1, hck, hcv⟩

theorem drop (ks : List FileKey) :
    (ks.foldl Graph.dropProvenance g).Lists fun p => (m p).filter fun c => c.key ∉ ks := by
  induction ks generalizing g m with
  | nil =>
    have hfilter : (fun p => (m p).filter fun c => c.key ∉ ([] : List FileKey)) = m := by
      funext p
      cases m p <;> simp
    rw [foldl_nil, hfilter]
    exact h
  | cons k ks ih =>
    have hstep := ih (h.dropProvenance hm k) (fun p c hc =>
      hm p c (Option.filter_eq_some_iff.mp hc).1)
    have hfilter : (fun p => ((m p).filter fun c => c.key ≠ k).filter fun c => c.key ∉ ks) =
        fun p => (m p).filter fun c => c.key ∉ k :: ks := by
      funext p
      rw [Option.filter_filter]
      congr 1
      funext c
      simp only [mem_cons, not_or, Bool.decide_and]
    rw [foldl_cons, ← hfilter]
    exact hstep

theorem putProvenance {c : Contribution κ}
    (hc : owner c.key = c.path) (hfree : ∀ c₀, m c.path = some c₀ → c₀.key = c.key) :
    (g.putProvenance c.key c).Lists fun p => if c.path = p then some c else m p := by
  constructor
  · intro p
    show (g.files.insert c.path c.key)[p]? = _
    rw [getElem?_insert_of, h.files p]
    split <;> rfl
  · intro k v
    show (g.provenance.insert c.key c.provenance)[k]? = some v ↔ _
    rw [getElem?_insert_of]
    constructor
    · intro hk
      split at hk
      · next hck => exact ⟨c.path, c, if_pos rfl, hck, Option.some.inj hk⟩
      · next hck =>
        obtain ⟨p, d, hd, hdk, hdv⟩ := (h.provenance k v).mp hk
        refine ⟨p, d, ?_, hdk, hdv⟩
        rw [if_neg, hd]
        intro hp
        subst hp
        exact hck ((hfree d hd).symm.trans hdk)
    · rintro ⟨p, d, hd, hdk, hdv⟩
      split at hd
      · cases hd
        rw [if_pos hdk, hdv]
      · next hp =>
        have hck : c.key ≠ k := fun he => hp (by rw [← hc, he, ← hdk, (hm p d hd).2])
        rw [if_neg hck]
        exact (h.provenance k v).mpr ⟨p, d, hd, hdk, hdv⟩

/-- Refreshing versions puts the contributions in force with those versions in their places. -/
theorem refresh (hl : l.Records t) (ht : t.Keyed owner)
    (hmt : ∀ p c c₀, t[p]? = some c → m p = some c₀ → c₀.key = c.key) (ks : List FileKey) :
    (ks.foldl l.refreshProvenance g).Lists fun p =>
      (t[p]?.filter fun c => c.key ∈ ks).or (m p) := by
  induction ks generalizing g m with
  | nil =>
    have hfilter : (fun p => (t[p]?.filter fun c => c.key ∈ ([] : List FileKey)).or (m p)) = m := by
      funext p
      cases t[p]? <;> simp
    rw [foldl_nil, hfilter]
    exact h
  | cons k ks ih =>
    rw [foldl_cons, Ledger.refreshProvenance, ExtTreeMap.get?_eq_getElem?]
    cases hk : l.contributions[k]? with
    | none =>
      have hother : ∀ (p : String) (c : Contribution κ), t[p]? = some c → c.key ≠ k := by
        intro p c hc he
        have := hl.held p c hc
        rw [he, hk] at this
        cases this
      have hfilter : (fun p => (t[p]?.filter fun c => c.key ∈ k :: ks).or (m p)) =
          fun p => (t[p]?.filter fun c => c.key ∈ ks).or (m p) := by
        funext p
        cases hc : t[p]? with
        | none => rfl
        | some c => simp [Option.filter_some, hother p c hc]
      rw [hfilter]
      exact ih h hm hmt
    | some c =>
      obtain ⟨hck, hcp⟩ := hl.known k c hk
      have howner := (ht c.path c hcp).2
      have hput := h.putProvenance hm howner (hmt c.path c · hcp)
      rw [hck] at hput
      have hstep := ih hput
        (by
          intro p d hd
          split at hd
          · next hp =>
            cases hd
            exact ⟨hp, howner.trans hp⟩
          · exact hm p d hd)
        (by
          intro p d d₀ hd hd₀
          split at hd₀
          · next hp =>
            cases hd₀
            rw [← hp, hcp] at hd
            rw [Option.some.inj hd]
          · exact hmt p d d₀ hd hd₀)
      have hfilter : (fun p => (t[p]?.filter fun d => d.key ∈ ks).or
            (if c.path = p then some c else m p)) =
          fun p => (t[p]?.filter fun d => d.key ∈ k :: ks).or (m p) := by
        funext p
        by_cases hp : c.path = p
        · subst hp
          rw [hcp, if_pos rfl]
          by_cases hks : k ∈ ks <;> simp [Option.filter_some, hck, hks]
        · rw [if_neg hp]
          cases hd : t[p]? with
          | none => rfl
          | some d =>
            have hdk : d.key ≠ k := fun he =>
              hp (ht.eq_of_key hcp hd (hck.trans he.symm)).1
            simp [Option.filter_some, hdk]
      rw [← hfilter]
      exact hstep

end

end Graph.Lists

end AppAtlas
