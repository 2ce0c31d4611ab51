import AppAtlas.Document.Rows
import AppAtlas.Proofs.Document.Calendar
import AppAtlas.Proofs.Document.Texts

/-!
# Documents in a database

A document whose lists are in the order of their keys is read back from its tables.  Rows are kept
as they are written, since every cell has the form that its column prefers; no row is refused, since
no key is repeated; and the order in which rows are read is the order in which they were written,
since identities as texts are ordered like numbers.

Only the table of contributions is read in another order than it is written: by role, the edges of a
file before its nodes, and the two lists of identities are taken apart again.

* `Database.ofDocument_eq`: an ordered document is refused only for an edge without its ends.
* `Database.document_tables`: what is written is read back, if its time can be.
-/

namespace AppAtlas

open List TableForm
open Json (Value)

/-! ### Inserting rows -/

namespace TableForm

variable {t : TableForm} {rows : List Row}

theorem agree_eq_false {columns : List Nat} {a b : Row} (h : pick a columns ≠ pick b columns) :
    agree columns a b = false := by
  rw [agree, beq_false_of_ne h, Bool.false_and]

theorem insertAll?_eq_some (hkeep : ∀ row ∈ rows, t.keep? row = some row)
    (hapart : ∀ columns ∈ t.unique, rows.Pairwise fun a b => pick a columns ≠ pick b columns) :
    t.insertAll? rows = some rows := by
  have hrun : ∀ (rows before : List Row), (∀ row ∈ rows, t.keep? row = some row) →
      (∀ columns ∈ t.unique,
        (before ++ rows).Pairwise fun a b => pick a columns ≠ pick b columns) →
      rows.foldlM t.insert? before = some (before ++ rows) := by
    intro rows
    induction rows with
    | nil =>
      intro before _ _
      rw [append_nil]
      rfl
    | cons row rows ih =>
      intro before hkeep hapart
      have hnew : t.repeats before row = false := by
        refine any_eq_false.mpr fun columns hcolumns => ?_
        rw [Bool.not_eq_true, any_eq_false]
        intro earlier hearlier
        have hne := (pairwise_append.mp (hapart columns hcolumns)).2.2 earlier hearlier row
          mem_cons_self
        rw [agree_eq_false hne.symm]
        exact Bool.false_ne_true
      have hinsert : t.insert? before row = some (before ++ [row]) := by
        rw [insert?, hkeep row mem_cons_self]
        show (if t.repeats before row then none else some (before ++ [row])) = _
        rw [hnew]
        rfl
      have hsplit : before ++ row :: rows = before ++ [row] ++ rows := by
        rw [append_assoc, singleton_append]
      rw [foldlM_cons, hinsert]
      show rows.foldlM t.insert? (before ++ [row]) = _
      rw [ih (before ++ [row]) (fun r hr => hkeep r (mem_cons_of_mem row hr))
        (hsplit ▸ hapart), hsplit]
  exact hrun rows [] hkeep hapart

end TableForm

/-! ### Documents in order -/

namespace Document

/-- The lists of a document are in the order of their keys, and no key is repeated. -/
structure Ordered {κ : Type} (d : Document κ) : Prop where
  nodes : d.nodes.Pairwise fun a b => compare a.id b.id = .lt
  edges : d.edges.Pairwise fun a b => compare a.id b.id = .lt
  paths : d.provenance.Pairwise fun a b => compare a.path b.path = .lt
  keys : d.provenance.Pairwise fun a b => a.key ≠ b.key
  nodeIds : ∀ x ∈ d.provenance, x.nodeIds.Pairwise fun a b => compare a b = .lt
  edgeIds : ∀ x ∈ d.provenance, x.edgeIds.Pairwise fun a b => compare a b = .lt

/-- The numbers and the time of a document are within their ranges. -/
structure Fits {κ : Type} (d : Document κ) : Prop where
  format : d.format < Nat.pow 2 32
  version : d.version < Nat.pow 2 64
  savedAt : ∀ t ∈ d.savedAt, t.Sound
  nodes : ∀ n ∈ d.nodes, n.lines.Fits
  evidence : ∀ e ∈ d.edges, ∀ x ∈ e.evidence, IsLine x.line
  placeholders : ∀ x ∈ d.provenance, ∀ n ∈ x.placeholders, n.lines.Fits

instance {κ : Type} (d : Document κ) : Decidable d.Fits :=
  decidable_of_iff (d.format < Nat.pow 2 32 ∧ d.version < Nat.pow 2 64 ∧
      (∀ t ∈ d.savedAt, t.Sound) ∧ (∀ n ∈ d.nodes, n.lines.Fits) ∧
      (∀ e ∈ d.edges, ∀ x ∈ e.evidence, IsLine x.line) ∧
      ∀ x ∈ d.provenance, ∀ n ∈ x.placeholders, n.lines.Fits)
    ⟨fun ⟨hformat, hversion, htime, hnodes, hevidence, hplaceholders⟩ =>
      ⟨hformat, hversion, htime, hnodes, hevidence, hplaceholders⟩,
    fun h => ⟨h.format, h.version, h.savedAt, h.nodes, h.evidence, h.placeholders⟩⟩

end Document

namespace Database

variable {d : Document Float}

variable {α : Type} {x : Entry} {i : Nat}

def tables (d : Document Float) : Database where
  values := valueRows d
  nodes := d.nodes.map nodeRow
  edges := d.edges.map edgeRow
  files := d.provenance.map fileRow
  members := d.provenance.flatMap memberRows

/-! ### Reading rows -/

theorem ok_bind {β : Type} (a : α) (f : α → Reading β) : (Except.ok a >>= f) = f a := rfl

theorem sound_some (cause : Corruption Float) (a : α) : sound cause (some a) = .ok a := rfl

theorem nodeId_text (id : NodeId) : nodeId id.text = .ok id := by
  rw [nodeId, NodeId.parse_text]
  rfl

theorem edgeId_text (id : EdgeId) : edgeId id.text = .ok id := by
  rw [edgeId, EdgeId.parse_text]
  rfl

theorem json_render {read : Value → Option α} {v : Value} {a : α} (hwhole : v.Whole)
    (h : read v = some a) : json read v.render = .ok a := by
  rw [json, Json.parse_render hwhole, Option.bind_some, h]
  rfl

theorem cell_eq_ok {read : Cell → Option α} {row : Row} {c : Cell} {a : α}
    (hc : row.getD i .null = c) (h : read c = some a) : cell read row i = .ok a := by
  rw [cell, hc, h]

theorem line?_integer {k : Nat} (h : IsLine k) : Cell.line? (.integer k) = some k := by
  have hpow : Int.pow 2 32 = ((Nat.pow 2 32 : Nat) : Int) := (Int.natCast_pow 2 32).symm
  have hk : (0 : Int) ≤ k ∧ (k : Int) < Int.pow 2 32 :=
    ⟨Int.natCast_nonneg k, hpow ▸ Int.ofNat_lt.mpr h⟩
  rw [Cell.line?, if_pos hk, Int.toNat_natCast]

/-- **Nodes are read back from their rows.** -/
theorem node_nodeRow {n : Node} (hfits : n.lines.Fits) (hlines : n.lines.start ≤ n.lines.stop) :
    node (nodeRow n) = .ok n := by
  have hid : cell Cell.text? (nodeRow n) 0 = .ok n.id.text := rfl
  have hkind : cell Cell.text? (nodeRow n) 1 = .ok n.kind.name := rfl
  have hfile : cell Cell.optionalText? (nodeRow n) 2 = .ok n.file := by
    cases hn : n.file <;> simp only [nodeRow, hn] <;> rfl
  have hstart : cell Cell.line? (nodeRow n) 3 = .ok n.lines.start :=
    cell_eq_ok rfl (line?_integer hfits.1)
  have hstop : cell Cell.line? (nodeRow n) 4 = .ok n.lines.stop :=
    cell_eq_ok rfl (line?_integer hfits.2)
  have hsignature : cell Cell.text? (nodeRow n) 5 = .ok n.signature := rfl
  have hname : cell Cell.text? (nodeRow n) 6 = .ok n.name := rfl
  have htext : cell Cell.text? (nodeRow n) 7 = .ok (Attributes.toJson n.attributes).render := rfl
  have hattributes : json Value.attributes? (Attributes.toJson n.attributes).render =
      .ok n.attributes :=
    json_render (Attributes.whole_toJson _) (Attributes.attributes?_toJson _)
  have hrange : LineRange.of n.lines.start n.lines.stop = n.lines := by
    rw [LineRange.of, Nat.max_eq_left hlines]
  rw [node, hid, ok_bind, hkind, ok_bind, htext, ok_bind, nodeId_text, ok_bind,
    NodeKind.parse?_name, sound_some, ok_bind, hfile, ok_bind, hstart, ok_bind, hstop, ok_bind,
    hsignature, ok_bind, hname, ok_bind, hattributes, ok_bind, hrange]
  rfl

/-- **Edges are read back from their rows.** -/
theorem edge_edgeRow {e : Edge Float} (h : ∀ x ∈ e.evidence, IsLine x.line) :
    edge (edgeRow e) = .ok e := by
  have hid : cell Cell.text? (edgeRow e) 0 = .ok e.id.text := rfl
  have hsource : cell Cell.text? (edgeRow e) 1 = .ok e.source.text := rfl
  have htarget : cell Cell.text? (edgeRow e) 2 = .ok e.target.text := rfl
  have hkind : cell Cell.text? (edgeRow e) 3 = .ok e.kind.name := rfl
  have hconfidence : cell Cell.float? (edgeRow e) 4 = .ok e.confidence := rfl
  have htext : cell Cell.text? (edgeRow e) 5 =
      .ok (Value.ofList Evidence.toJson e.evidence).render := rfl
  have hevidence : json (Value.list? Value.evidence?)
      (Value.ofList Evidence.toJson e.evidence).render = .ok e.evidence :=
    json_render (Value.whole_ofList fun x hx => Evidence.whole_toJson (h x hx))
      (Value.list?_ofList fun x hx => Evidence.evidence?_toJson (h x hx))
  rw [edge, hid, ok_bind, hsource, ok_bind, htarget, ok_bind, hkind, ok_bind, htext, ok_bind,
    edgeId_text, ok_bind, nodeId_text, ok_bind, nodeId_text, ok_bind, EdgeKind.parse?_name,
    sound_some, ok_bind, hconfidence, ok_bind, hevidence, ok_bind]
  rfl

/-! ### Contributions -/

def memberRow (key : FileKey) (role id : String) : Row := [.text key.text, .text role, .text id]

theorem memberRows_eq (x : Entry) :
    memberRows x = (x.nodeIds.map fun id => memberRow x.key nodeRole id.text) ++
      x.edgeIds.map fun id => memberRow x.key edgeRole id.text := rfl

theorem exists_of_mem_memberRows {row : Row} (h : row ∈ memberRows x) :
    ∃ role id, row = memberRow x.key role id := by
  rw [memberRows_eq, mem_append, mem_map, mem_map] at h
  rcases h with ⟨id, -, rfl⟩ | ⟨id, -, rfl⟩
  · exact ⟨nodeRole, id.text, rfl⟩
  · exact ⟨edgeRole, id.text, rfl⟩

theorem memberRow_inj {k k' : FileKey} {r r' i i' : String}
    (h : memberRow k r i = memberRow k' r' i') : k = k' ∧ r = r' ∧ i = i' := by
  simp only [memberRow, cons.injEq, Cell.text.injEq, and_true] at h
  exact ⟨FileKey.text_injective h.1, h.2.1, h.2.2⟩

theorem ne_of_compare_lt [Ord α] [Std.ReflOrd α] {a b : α} (h : compare a b = .lt) : a ≠ b := by
  rintro rfl
  rw [Std.compare_self] at h
  cases h

theorem pairwise_members (h : d.Ordered) : (d.provenance.flatMap memberRows).Pairwise (· ≠ ·) := by
  rw [pairwise_flatMap]
  refine ⟨fun x hx => ?_, ?_⟩
  · rw [memberRows_eq, pairwise_append, pairwise_map, pairwise_map]
    refine ⟨(h.nodeIds x hx).imp fun hlt heq => ?_, (h.edgeIds x hx).imp fun hlt heq => ?_, ?_⟩
    · exact ne_of_compare_lt hlt (NodeId.text_injective (memberRow_inj heq).2.2)
    · exact ne_of_compare_lt hlt (EdgeId.text_injective (memberRow_inj heq).2.2)
    · intro row hrow row' hrow' heq
      obtain ⟨id, -, rfl⟩ := mem_map.mp hrow
      obtain ⟨id', -, rfl⟩ := mem_map.mp hrow'
      exact absurd (memberRow_inj heq).2.1 (by decide)
  · refine h.keys.imp fun hne row hrow row' hrow' heq => ?_
    obtain ⟨role, id, rfl⟩ := exists_of_mem_memberRows hrow
    obtain ⟨role', id', rfl⟩ := exists_of_mem_memberRows hrow'
    exact hne (memberRow_inj heq).1

theorem flatMap_of_key {β γ : Type} [DecidableEq β] {key : α → β} {f : α → List γ} {xs : List α}
    (h : xs.Pairwise fun a b => key a ≠ key b) {x : α} (hx : x ∈ xs) :
    (xs.flatMap fun y => if key y = key x then f y else []) = f x := by
  induction xs with
  | nil => cases hx
  | cons y ys ih =>
    obtain ⟨hy, hys⟩ := pairwise_cons.mp h
    rw [flatMap_cons]
    rcases mem_cons.mp hx with rfl | hx
    · have hothers : (ys.flatMap fun y => if key y = key x then f y else []) = [] :=
        flatMap_eq_nil_iff.mpr fun z hz => if_neg (hy z hz).symm
      rw [if_pos rfl, hothers, append_nil]
    · rw [if_neg (hy x hx), nil_append, ih hys hx]

/-- **The contributions of a file are found by its key.** -/
theorem filter_members (h : d.Ordered) (hx : x ∈ d.provenance) :
    (d.provenance.flatMap memberRows).filter (fun row => row.head? == some (.text x.key.text)) =
      memberRows x := by
  have hone : ∀ y, (memberRows y).filter (fun row => row.head? == some (.text x.key.text)) =
      if y.key = x.key then memberRows y else [] := by
    intro y
    split
    · next hkey =>
      refine filter_eq_self.mpr fun row hrow => ?_
      obtain ⟨role, id, rfl⟩ := exists_of_mem_memberRows hrow
      simp [memberRow, hkey]
    · next hkey =>
      refine filter_eq_nil_iff.mpr fun row hrow heq => ?_
      obtain ⟨role, id, rfl⟩ := exists_of_mem_memberRows hrow
      simp only [memberRow, head?_cons, beq_iff_eq, Option.some.injEq, Cell.text.injEq] at heq
      exact hkey (FileKey.text_injective heq)
  rw [filter_flatMap]
  simp only [hone]
  exact flatMap_of_key h.keys hx

/-! ### The order of rows -/

def sortKey (columns : List Nat) (row : Row) : List (Option String) :=
  (pick row columns).map fun c => c.text?

/-- **Rows are read in the one order in which their keys grow.** -/
theorem sortedBy_eq_of_perm {columns : List Nat} {rows rows' : List Row} (hperm : rows.Perm rows')
    (h : rows'.Pairwise fun a b => compare (sortKey columns a) (sortKey columns b) = .lt) :
    sortedBy columns rows = rows' :=
  OrderedMap.mergeSort_eq_of_perm hperm h

theorem compare_singleton (s t : String) : compare [some s] [some t] = compare s t := by
  rw [List.compare_cons_cons, List.compare_nil_nil, Ordering.then_eq]
  rfl

theorem compare_pair (r s r' t : String) :
    compare [some r, some s] [some r', some t] = (compare r r').then (compare s t) := by
  rw [List.compare_cons_cons, compare_singleton]
  rfl

theorem sortedBy_map {write : α → Row} {text : α → String} {xs : List α}
    (hpick : ∀ x, pick (write x) [i] = [.text (text x)])
    (h : xs.Pairwise fun a b => compare (text a) (text b) = .lt) :
    sortedBy [i] (xs.map write) = xs.map write := by
  refine sortedBy_eq_of_perm (.refl _) ?_
  rw [pairwise_map]
  refine h.imp fun {a b} hlt => ?_
  rw [sortKey, sortKey, hpick, hpick]
  exact (compare_singleton (text a) (text b)).trans hlt

def sortedMembers (x : Entry) : List Row :=
  (x.edgeIds.map fun id => memberRow x.key edgeRole id.text) ++
    x.nodeIds.map fun id => memberRow x.key nodeRole id.text

/-- The edges of a file are read before its nodes, both in order. -/
theorem sortedBy_memberRows (hnodes : x.nodeIds.Pairwise fun a b => compare a b = .lt)
    (hedges : x.edgeIds.Pairwise fun a b => compare a b = .lt) :
    sortedBy [1, 2] (memberRows x) = sortedMembers x := by
  have hkey : ∀ k role id,
      sortKey [1, 2] (memberRow k role id) = [some role, some id] := fun _ _ _ => rfl
  refine sortedBy_eq_of_perm perm_append_comm ?_
  rw [sortedMembers, pairwise_append, pairwise_map, pairwise_map]
  refine ⟨hedges.imp fun {a b} hlt => ?_, hnodes.imp fun {a b} hlt => ?_, ?_⟩
  · rw [hkey, hkey, compare_pair, Std.compare_self, EdgeId.compare_text, hlt]
    rfl
  · rw [hkey, hkey, compare_pair, Std.compare_self, NodeId.compare_text, hlt]
    rfl
  · intro row hrow row' hrow'
    obtain ⟨id, -, rfl⟩ := mem_map.mp hrow
    obtain ⟨id', -, rfl⟩ := mem_map.mp hrow'
    have hroles : compare edgeRole nodeRole = .lt := by decide
    rw [hkey, hkey, compare_pair, hroles]
    rfl

theorem addMember_edge (x : Entry) (key : FileKey) (id : EdgeId) :
    addMember x (memberRow key edgeRole id.text) = .ok { x with edgeIds := x.edgeIds ++ [id] } := by
  have hrole : cell Cell.text? (memberRow key edgeRole id.text) 1 = .ok edgeRole := rfl
  have hid : cell Cell.text? (memberRow key edgeRole id.text) 2 = .ok id.text := rfl
  have hother : edgeRole ≠ nodeRole := by decide
  rw [addMember, hrole, ok_bind, hid, ok_bind, if_neg hother, if_pos rfl, edgeId_text]
  rfl

theorem addMember_node (x : Entry) (key : FileKey) (id : NodeId) :
    addMember x (memberRow key nodeRole id.text) = .ok { x with nodeIds := x.nodeIds ++ [id] } := by
  have hrole : cell Cell.text? (memberRow key nodeRole id.text) 1 = .ok nodeRole := rfl
  have hid : cell Cell.text? (memberRow key nodeRole id.text) 2 = .ok id.text := rfl
  rw [addMember, hrole, ok_bind, hid, ok_bind, if_pos rfl, nodeId_text]
  rfl

theorem foldlM_edges (key : FileKey) (ids : List EdgeId) (x : Entry) :
    (ids.map fun id => memberRow key edgeRole id.text).foldlM addMember x =
      .ok { x with edgeIds := x.edgeIds ++ ids } := by
  induction ids generalizing x with
  | nil =>
    rw [append_nil]
    rfl
  | cons id ids ih =>
    rw [map_cons, foldlM_cons, addMember_edge, ok_bind, ih, append_assoc,
      singleton_append]

theorem foldlM_nodes (key : FileKey) (ids : List NodeId) (x : Entry) :
    (ids.map fun id => memberRow key nodeRole id.text).foldlM addMember x =
      .ok { x with nodeIds := x.nodeIds ++ ids } := by
  induction ids generalizing x with
  | nil =>
    rw [append_nil]
    rfl
  | cons id ids ih =>
    rw [map_cons, foldlM_cons, addMember_node, ok_bind, ih, append_assoc,
      singleton_append]

theorem foldlM_sortedMembers (x : Entry) :
    (sortedMembers x).foldlM addMember { x with nodeIds := [], edgeIds := [] } = .ok x := by
  rw [sortedMembers, foldlM_append, foldlM_edges, ok_bind, foldlM_nodes]
  rfl

/-- **Entries are read back from the rows of their files.** -/
theorem entry_fileRow (h : d.Ordered) (hx : x ∈ d.provenance)
    (hfits : ∀ n ∈ x.placeholders, n.lines.Fits) : (tables d).entry (fileRow x) = .ok x := by
  have hkey : cell Cell.text? (fileRow x) 0 = .ok x.key.text := rfl
  have hpath : cell Cell.text? (fileRow x) 1 = .ok x.path := rfl
  have hnodes : cell Cell.text? (fileRow x) 2 =
      .ok (Value.ofList Node.toJson x.placeholders).render := rfl
  have hkeys : cell Cell.text? (fileRow x) 3 = .ok (LookupKeys.toJson x.lookups).render := rfl
  have hplaceholders : json (Value.list? Value.node?)
      (Value.ofList Node.toJson x.placeholders).render = .ok x.placeholders :=
    json_render (Value.whole_ofList fun n hn => Node.whole_toJson (hfits n hn))
      (Value.list?_ofList fun n hn => Node.node?_toJson (hfits n hn))
  have hlookups : json Value.lookupKeys? (LookupKeys.toJson x.lookups).render = .ok x.lookups :=
    json_render (Value.whole_ofList fun k _ => LookupKey.whole_toJson k)
      (LookupKeys.lookupKeys?_toJson x.lookups)
  have hmembers : (tables d).members.filter (fun r => r.head? == some (.text x.key.text)) =
      memberRows x := filter_members h hx
  rw [entry, hkey, ok_bind, hnodes, ok_bind, hkeys, ok_bind, hpath, ok_bind, hplaceholders, ok_bind,
    hlookups, ok_bind]
  dsimp only
  rw [hmembers, sortedBy_memberRows (h.nodeIds x hx) (h.edgeIds x hx)]
  exact foldlM_sortedMembers x

/-! ### General values -/

theorem value?_eq_some {db : Database} {name text : String}
    (h : db.values.find? (fun row => row.head? == some (.text name)) =
      some [.text name, .text text]) : db.value? name = .ok (some text) := by
  rw [value?, h]
  rfl

theorem number_eq_ok {db : Database} {name : String} {n bits : Nat}
    (h : db.value? name = .ok (some (toString n))) (hn : n < Nat.pow 2 bits) :
    db.number name bits = .ok n := by
  rw [number, h, ok_bind, sound_some, ok_bind, readNatural_toString hn]
  rfl

theorem format_tables (h : d.format < Nat.pow 2 32) :
    (tables d).number "format_version" 32 = .ok d.format := by
  refine number_eq_ok (value?_eq_some ?_) h
  simp [tables, valueRows]

theorem version_tables (h : d.version < Nat.pow 2 64) :
    (tables d).number "version" 64 = .ok d.version := by
  refine number_eq_ok (value?_eq_some ?_) h
  simp [tables, valueRows]

/-- The time of saving is read back, but for one in a year that needs a sign. -/
theorem savedAt_tables (h : ∀ t ∈ d.savedAt, t.Sound) :
    (tables d).savedAt = if ∀ t ∈ d.savedAt, t.FourDigits then .ok d.savedAt
      else .error (.corrupt .unreadable) := by
  cases ht : d.savedAt with
  | none =>
    have hvalue : (tables d).value? "saved_at" = .ok none := by
      have hfind : (tables d).values.find? (fun row => row.head? == some (.text "saved_at")) =
          none := by
        simp [tables, valueRows, ht]
      rw [value?, hfind]
      rfl
    rw [savedAt, hvalue]
    rfl
  | some t =>
    have hvalue : (tables d).value? "saved_at" = .ok (some t.numericText) := by
      refine value?_eq_some ?_
      simp [tables, valueRows, ht]
    rw [savedAt, hvalue, ok_bind]
    dsimp only
    rw [Timestamp.parse?_numericText (h t ht)]
    by_cases hyear : t.FourDigits
    · have hall : ∀ u ∈ some t, u.FourDigits := fun u hu => Option.some.inj hu ▸ hyear
      rw [if_pos hyear, if_pos hall]
      rfl
    · rw [if_neg hyear, if_neg fun hall => hyear (hall t rfl)]
      rfl

/-! ### Whole documents -/

theorem pairwise_pick {write : α → Row} {text : α → String} {xs : List α}
    (hpick : ∀ x, pick (write x) [i] = [.text (text x)])
    (h : xs.Pairwise fun a b => text a ≠ text b) :
    (xs.map write).Pairwise fun a b => pick a [i] ≠ pick b [i] := by
  rw [pairwise_map]
  refine h.imp fun {a b} hne heq => hne ?_
  rw [hpick, hpick] at heq
  exact Cell.text.inj (cons.inj heq).1

theorem insertAll?_values (d : Document Float) :
    TableForm.values.insertAll? (valueRows d) = some (valueRows d) := by
  refine insertAll?_eq_some ?_ ?_
  · intro row hrow
    simp only [valueRows, mem_append, mem_cons, not_mem_nil, or_false] at hrow
    rcases hrow with (rfl | rfl | rfl) | hrow
    · rfl
    · rfl
    · rfl
    · obtain ⟨t, -, rfl⟩ := Option.map_eq_some_iff.mp (Option.mem_toList.mp hrow)
      rfl
  · intro columns hcolumns
    obtain rfl := mem_singleton.mp hcolumns
    cases ht : d.savedAt <;> simp [valueRows, pick, ht]

theorem insertAll?_nodes (h : d.Ordered) :
    TableForm.nodes.insertAll? (d.nodes.map nodeRow) = some (d.nodes.map nodeRow) := by
  refine insertAll?_eq_some ?_ ?_
  · intro row hrow
    obtain ⟨n, -, rfl⟩ := mem_map.mp hrow
    cases hn : n.file <;> simp only [nodeRow, hn] <;> rfl
  · intro columns hcolumns
    obtain rfl := mem_singleton.mp hcolumns
    exact pairwise_pick (fun n => rfl) (h.nodes.imp fun hlt heq =>
      ne_of_compare_lt hlt (NodeId.text_injective heq))

theorem insertAll?_edges (h : d.Ordered) (hnumbers : ∀ e ∈ d.edges, 0.0 < e.confidence) :
    TableForm.edges.insertAll? (d.edges.map edgeRow) = some (d.edges.map edgeRow) := by
  refine insertAll?_eq_some ?_ ?_
  · intro row hrow
    obtain ⟨e, he, rfl⟩ := mem_map.mp hrow
    simp only [TableForm.keep?, TableForm.edges, edgeRow, zipWith_cons_cons, Cell.store,
      Cell.taken_real_of_pos (hnumbers e he)]
    rfl
  · intro columns hcolumns
    obtain rfl := mem_singleton.mp hcolumns
    exact pairwise_pick (fun e => rfl) (h.edges.imp fun hlt heq =>
      ne_of_compare_lt hlt (EdgeId.text_injective heq))

theorem insertAll?_files (h : d.Ordered) :
    TableForm.files.insertAll? (d.provenance.map fileRow) = some (d.provenance.map fileRow) := by
  refine insertAll?_eq_some ?_ ?_
  · intro row hrow
    obtain ⟨x, -, rfl⟩ := mem_map.mp hrow
    rfl
  · intro columns hcolumns
    simp only [TableForm.files, mem_cons, not_mem_nil, or_false] at hcolumns
    rcases hcolumns with rfl | rfl
    · exact pairwise_pick (fun x => rfl) (h.keys.imp fun hne heq =>
        hne (FileKey.text_injective heq))
    · exact pairwise_pick (fun x => rfl) (h.paths.imp ne_of_compare_lt)

theorem insertAll?_members (h : d.Ordered) :
    TableForm.members.insertAll? (d.provenance.flatMap memberRows) =
      some (d.provenance.flatMap memberRows) := by
  have hform : ∀ row ∈ d.provenance.flatMap memberRows,
      ∃ key role id, row = memberRow key role id := by
    intro row hrow
    obtain ⟨x, -, hrow⟩ := mem_flatMap.mp hrow
    exact ⟨x.key, exists_of_mem_memberRows hrow⟩
  refine insertAll?_eq_some ?_ ?_
  · intro row hrow
    obtain ⟨key, role, id, rfl⟩ := hform row hrow
    rfl
  · intro columns hcolumns
    obtain rfl := mem_singleton.mp hcolumns
    refine (pairwise_members h).imp_of_mem fun {row row'} hrow hrow' hne => ?_
    obtain ⟨key, role, id, rfl⟩ := hform row hrow
    obtain ⟨key', role', id', rfl⟩ := hform row' hrow'
    exact hne

/-- **A document in order is refused only for an edge without its ends**, if all edges have
confidences. -/
theorem ofDocument_eq (h : d.Ordered) (hnumbers : ∀ e ∈ d.edges, 0.0 < e.confidence) :
    ofDocument d = if endsPresent d then .ok (tables d) else .error .database := by
  have hmembers : distinct (d.provenance.flatMap memberRows) = d.provenance.flatMap memberRows :=
    distinctOn_of_pairwise (pairwise_members h)
  have hrows : ofRows? (tables d) = some (tables d) := by
    simp only [ofRows?, tables, insertAll?_values, insertAll?_nodes h, insertAll?_edges h hnumbers,
      insertAll?_files h, insertAll?_members h]
    rfl
  rw [tables] at hrows
  rw [ofDocument, hmembers]
  cases endsPresent d with
  | false => rfl
  | true =>
    rw [if_pos rfl, if_pos rfl, hrows]
    rfl

/-- **A document in order is read back from its tables**, if its time can be. -/
theorem document_tables (h : d.Ordered) (hfits : d.Fits)
    (hlines : ∀ n ∈ d.nodes, n.lines.start ≤ n.lines.stop) :
    (tables d).document = if ∀ t ∈ d.savedAt, t.FourDigits then .ok d
      else .error (.corrupt .unreadable) := by
  have hnodes : (sortedBy [0] (tables d).nodes).mapM node = .ok d.nodes := by
    have htexts : d.nodes.Pairwise fun a b => compare a.id.text b.id.text = .lt :=
      h.nodes.imp fun hlt => by rw [NodeId.compare_text, hlt]
    have hsorted : sortedBy [0] (tables d).nodes = d.nodes.map nodeRow :=
      sortedBy_map (fun n => rfl) htexts
    rw [hsorted]
    exact mapM_map_eq_pure fun n hn => node_nodeRow (hfits.nodes n hn) (hlines n hn)
  have hedges : (sortedBy [0] (tables d).edges).mapM edge = .ok d.edges := by
    have htexts : d.edges.Pairwise fun a b => compare a.id.text b.id.text = .lt :=
      h.edges.imp fun hlt => by rw [EdgeId.compare_text, hlt]
    have hsorted : sortedBy [0] (tables d).edges = d.edges.map edgeRow :=
      sortedBy_map (fun e => rfl) htexts
    rw [hsorted]
    exact mapM_map_eq_pure fun e he => edge_edgeRow (hfits.evidence e he)
  have hfiles : (sortedBy [1] (tables d).files).mapM (tables d).entry = .ok d.provenance := by
    have hsorted : sortedBy [1] (tables d).files = d.provenance.map fileRow :=
      sortedBy_map (fun x => rfl) h.paths
    rw [hsorted]
    exact mapM_map_eq_pure fun x hx => entry_fileRow h hx (hfits.placeholders x hx)
  rw [document, format_tables hfits.format, ok_bind, version_tables hfits.version, ok_bind,
    savedAt_tables hfits.savedAt]
  split
  · rw [ok_bind, hnodes, ok_bind, hedges, ok_bind, hfiles, ok_bind]
    rfl
  · rfl

end Database

end AppAtlas
