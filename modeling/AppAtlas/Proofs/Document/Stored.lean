import AppAtlas.Proofs.Document.Rows
import AppAtlas.Proofs.Store.Saved
import AppAtlas.Proofs.Store.Weighed

/-!
# Stores in a database

A published store writes a document in order: its nodes and edges stand under their identities, and
a path has at most one contribution.  The last needs an invariant of the ledger, which does not hang
on the versions of files: the path of every contribution leads to its version (`Ledger.Filed`).  Two
paths can lead to one version, but then the contribution is that of one of them, and the other has
none.

So the document comes back from its tables as it is, unless the database refuses it.  It does so for
an edge without its ends, which a store can have, for instance after it was restored from a document
whose entries do not carry the ends of their edges.

* `published_document_read_back_unless_dangling`: when it is written, and what is read back.
* `readingDocument_not_written`: a store that is not written, and a time that is not read.
-/

namespace AppAtlas

open Std OrderedMap

variable {κ : Type}

/-! ### Paths in the ledger -/

/-- Contributions stand under their versions, and the path of each leads to it. -/
def Ledger.Filed (l : Ledger κ) : Prop :=
  ∀ (k : FileKey) (c : Contribution κ), l.contributions[k]? = some c →
    c.key = k ∧ l.paths[c.path]? = some k

namespace Ledger

variable {l : Ledger κ}

theorem filed_empty (v : Nat) : (empty v : Ledger κ).Filed := by
  intro k c hc
  simp [empty] at hc

theorem Filed.attach (h : l.Filed) {c : Contribution κ} (hfree : l.paths[c.path]? = none) :
    (l.attach c).Filed := by
  intro k d hd
  have hd : (l.contributions.insert c.key c)[k]? = some d := hd
  show d.key = k ∧ (l.paths.insert c.path c.key)[d.path]? = some k
  rw [getElem?_insert_of] at hd ⊢
  split at hd
  · next hk =>
    cases hd
    exact ⟨hk, by rw [if_pos rfl, hk]⟩
  · obtain ⟨hkey, hpath⟩ := h k d hd
    have hother : c.path ≠ d.path := by
      intro heq
      rw [← heq, hfree] at hpath
      cases hpath
    rw [if_neg hother]
    exact ⟨hkey, hpath⟩

theorem Filed.detach (h : l.Filed) (p : String) :
    (l.detach p).1.Filed ∧ (l.detach p).1.paths[p]? = none := by
  -- what is left is of another path, since `p` leads to nothing that is left
  have hleft : ∀ {contributions : ExtTreeMap FileKey (Contribution κ) compare} {key : FileKey},
      l.paths[p]? = some key → contributions[key]? = none →
      (∀ (k : FileKey) (c : Contribution κ), contributions[k]? = some c →
        l.contributions[k]? = some c) →
      ∀ (k : FileKey) (c : Contribution κ), contributions[k]? = some c →
        c.key = k ∧ (l.paths.erase p)[c.path]? = some k := by
    intro contributions key hkey hgone hsub k c hc
    obtain ⟨hk, hpath⟩ := h k c (hsub k c hc)
    have hother : p ≠ c.path := by
      intro heq
      rw [← heq, hkey] at hpath
      rw [← Option.some.inj hpath, hgone] at hc
      cases hc
    rw [getElem?_erase_of, if_neg hother]
    exact ⟨hk, hpath⟩
  have herased : (l.paths.erase p)[p]? = none := by rw [getElem?_erase_of, if_pos rfl]
  rw [Ledger.detach]
  cases hp : l.paths.get? p with
  | none => exact ⟨h, hp⟩
  | some key =>
    dsimp only
    cases hc : l.contributions.get? key with
    | none => exact ⟨hleft hp hc fun k c hc => hc, herased⟩
    | some c =>
      refine ⟨hleft hp (by rw [getElem?_erase_of, if_pos rfl]) fun k d hd => ?_, herased⟩
      rw [getElem?_erase_of] at hd
      split at hd
      · cases hd
      · exact hd

end Ledger

variable [Confidence κ]

theorem Batch.filed_of {l : Ledger κ} (h : l.Filed) (changed : List (Contribution κ))
    (removed : List String) : (Batch.of l changed removed).ledger.Filed :=
  Batch.of_induction h (fun _ p hl => (hl.detach p).1) fun _ c _ hl =>
    (hl.detach c.path).1.attach (hl.detach c.path).2

/-! ### Published documents -/

namespace Store

variable {s : Store κ}

theorem Published.filed (h : s.Published) : s.ledger.Filed := by
  have hkept : CommitsKeep fun (l : Ledger κ) _ => l.Filed := by
    refine ⟨Ledger.filed_empty 0, ?_, fun _ _ _ hl => hl⟩
    intro l g changed removed hl _
    have hb := Batch.filed_of hl changed removed
    rw [Ledger.commit]
    dsimp only
    split
    · exact hb
    · exact hb
  exact hkept.published h

theorem Published.pairwise_contributions (h : s.Published) :
    s.ledger.contributions.values.Pairwise fun c d => c.key ≠ d.key ∧ c.path ≠ d.path := by
  have hkeys : s.ledger.contributions.values.Pairwise fun c d => c.key ≠ d.key :=
    pairwise_values_ne fun k c hc => (h.filed k c hc).1
  refine hkeys.imp_of_mem fun {c d} hc hd hne => ⟨hne, fun hpath => hne ?_⟩
  obtain ⟨k, hk⟩ := mem_values.mp hc
  obtain ⟨k', hk'⟩ := mem_values.mp hd
  obtain ⟨hckey, hcpath⟩ := h.filed k c hk
  obtain ⟨hdkey, hdpath⟩ := h.filed k' d hk'
  rw [hpath, hdpath] at hcpath
  rw [hckey, hdkey, Option.some.inj hcpath]

omit [Confidence κ] in
theorem exists_of_mem_provenance {x : Entry} (h : x ∈ s.document.provenance) :
    ∃ c ∈ s.ledger.contributions.values, c.entry = x :=
  List.mem_map.mp (List.mem_mergeSort.mp h)

/-- **The document of a published store is in order**, whenever it is saved. -/
theorem Published.ordered_document (h : s.Published) (time : Option Timestamp) :
    ({ s.document with savedAt := time } : Document κ).Ordered := by
  have hapart : s.document.provenance.Pairwise fun x y => x.key ≠ y.key ∧ x.path ≠ y.path := by
    refine ((List.mergeSort_perm _ _).pairwise_iff fun hne => ⟨hne.1.symm, hne.2.symm⟩).mpr ?_
    rw [List.pairwise_map]
    exact h.pairwise_contributions
  refine ⟨pairwise_values fun id n hn => (h.sound id n hn).1,
    pairwise_values fun id e he => (h.weighed id e he).1, ?_, hapart.imp And.left, ?_, ?_⟩
  · have hsorted : s.document.provenance.Pairwise fun x y => (compare x.path y.path).isLE = true :=
      pairwise_mergeSort_key Entry.path _
    refine (hsorted.and hapart).imp fun {x y} hxy => ?_
    have hle := hxy.1
    cases hcompare : compare x.path y.path with
    | lt => rfl
    | eq => exact absurd (Std.compare_eq_iff_eq.mp hcompare) hxy.2.2
    | gt =>
      rw [hcompare] at hle
      cases hle
  · intro x hx
    obtain ⟨c, -, rfl⟩ := exists_of_mem_provenance hx
    exact pairwise_sortedSet _
  · intro x hx
    obtain ⟨c, -, rfl⟩ := exists_of_mem_provenance hx
    exact pairwise_sortedSet _

theorem Published.confidence_pos {s : Store Float} (h : s.Published) :
    ∀ e ∈ s.document.edges, 0.0 < e.confidence := by
  intro e he
  obtain ⟨id, hid⟩ := mem_values.mp he
  have hunit := (h.weighed id e hid).2
  rw [Confidence.isUnit, Bool.and_eq_true] at hunit
  exact of_decide_eq_true hunit.1

theorem Published.endsPresent_document {s : Store Float} (h : s.Published)
    (time : Option Timestamp) :
    Database.endsPresent { s.document with savedAt := time } ↔ s.graph.Closed := by
  have hnode : ∀ id, s.document.hasNode id ↔ s.graph.hasNode id := by
    intro id
    rw [Document.hasNode_iff, Graph.hasNode, ExtTreeMap.contains_eq_isSome_getElem?,
      Option.isSome_iff_exists]
    constructor
    · rintro ⟨n, hn, rfl⟩
      obtain ⟨id, hid⟩ := mem_values.mp hn
      rw [(h.sound id n hid).1]
      exact ⟨n, hid⟩
    · rintro ⟨n, hn⟩
      exact ⟨n, mem_values.mpr ⟨id, hn⟩, (h.sound id n hn).1⟩
  show (s.graph.edgeList.all fun e => s.document.hasNode e.source && s.document.hasNode e.target) =
    true ↔ _
  simp only [List.all_eq_true, Bool.and_eq_true, hnode]
  rfl

end Store

/-! ### Writing and reading -/

/-- **The document of a published store comes back from its tables**, if every edge of the graph has
its ends and the year of saving is written with four digits.  Without these ends the document is not
written; with another year it is written and not read. -/
theorem published_document_read_back_unless_dangling {s : Store Float} (hs : s.Published)
    (time : Option Timestamp)
    (hfits : ({ s.document with savedAt := time } : Document Float).Fits)
    (hlines : ∀ n ∈ s.document.nodes, n.lines.start ≤ n.lines.stop) :
    (s.graph.Closed → ∃ db : Database,
      Database.ofDocument { s.document with savedAt := time } = .ok db ∧
      db.document = if ∀ t ∈ time, t.FourDigits then .ok { s.document with savedAt := time }
        else .error (.corrupt .unreadable)) ∧
    (¬s.graph.Closed →
      Database.ofDocument { s.document with savedAt := time } = .error .database) := by
  have hordered := hs.ordered_document time
  have hends := hs.endsPresent_document time
  have hwritten := Database.ofDocument_eq hordered hs.confidence_pos
  refine ⟨fun hclosed => ?_, fun hopen => ?_⟩
  · rw [if_pos (hends.mpr hclosed)] at hwritten
    exact ⟨_, hwritten, Database.document_tables hordered hfits hlines⟩
  · rw [hwritten, if_neg fun hpresent => hopen (hends.mp hpresent)]

/-- The document of two files, saved within the leap second at the end of 2016. -/
def leapReading : Document Float :=
  { (Store.afterCalls sharedReading).document with savedAt := some ⟨1483228799, 1500000000⟩ }

theorem leapReading_read_back :
    (Store.afterCalls sharedReading).graph.Closed ∧
    ∃ db : Database, Database.ofDocument leapReading = .ok db ∧ db.document = .ok leapReading := by
  have hclosed : (Store.afterCalls sharedReading).graph.Closed := by decide +kernel
  have hplaceholders : ∀ c ∈ (Store.afterCalls sharedReading).ledger.contributions.values,
      ∀ n ∈ c.entry.placeholders, n.lines.Fits := by decide +kernel
  have hfits : leapReading.Fits := by
    refine ⟨by decide +kernel, by decide +kernel, by decide, by decide +kernel, by decide +kernel,
      fun x hx => ?_⟩
    obtain ⟨c, hc, rfl⟩ := Store.exists_of_mem_provenance hx
    exact hplaceholders c hc
  obtain ⟨db, hwritten, hread⟩ := (published_document_read_back_unless_dangling
    (Store.published_afterCalls sharedReading) _ hfits (by decide +kernel)).1 hclosed
  rw [if_pos (by decide)] at hread
  exact ⟨hclosed, db, hwritten, hread⟩

/-- **A store that is not written, and a time that is not read**: the edge that an entry lists
without its ends stays when they are removed, and the year 10000 is written with a sign. -/
theorem readingDocument_not_written :
    (∃ s : Store Float, s.Published ∧ s.document.Fits ∧
      (∀ n ∈ s.document.nodes, n.lines.start ≤ n.lines.stop) ∧
      Database.ofDocument s.document = .error .database) ∧
    ∃ (s : Store Float) (t : Timestamp) (db : Database), s.Published ∧
      ({ s.document with savedAt := some t } : Document Float).Fits ∧
      (∀ n ∈ s.document.nodes, n.lines.start ≤ n.lines.stop) ∧
      Database.ofDocument { s.document with savedAt := some t } = .ok db ∧
      db.document = .error (.corrupt .unreadable) := by
  constructor
  · have hs : ((readingDocument "b.sql").store.runAll [.remove "a.sql"]).Published :=
      (Store.Published.restore (Store.restore_of_isOk (by decide +kernel))).runAll _
    refine ⟨_, hs, by decide +kernel, by decide +kernel, ?_⟩
    refine (Database.ofDocument_eq (hs.ordered_document none) hs.confidence_pos).trans (if_neg ?_)
    rw [hs.endsPresent_document none]
    decide +kernel
  · have hs : (Store.empty : Store Float).Published := .empty
    refine ⟨_, ⟨253402300800, 0⟩, _, hs, by decide +kernel, by decide +kernel,
      (Database.ofDocument_eq (hs.ordered_document (some _)) hs.confidence_pos).trans
        (if_pos (by decide +kernel)), ?_⟩
    refine (Database.document_tables (hs.ordered_document _) (by decide +kernel)
      (by decide +kernel)).trans (if_neg ?_)
    decide +kernel

end AppAtlas
