import AppAtlas.Graph.Edge
import AppAtlas.Graph.LookupKey

/-! # Indices

A graph keeps three indices beside its nodes and edges: the edges that leave a node, those that
enter it, and the nodes that stand under a lookup key. They are changed entry by entry as nodes and
edges come and go. An index is right if it has exactly the entries that nodes or edges call for, and
each change keeps it right.
-/

namespace AppAtlas

open Std

/-- For each key a set of entries. A key whose last entry is dropped goes with it. -/
abbrev Index (α β : Type) [Ord α] [Ord β] := ExtTreeMap α (ExtTreeSet β compare) compare

namespace Index

variable {α β : Type} [Ord α] [TransOrd α] [Ord β] [TransOrd β]

def entries (i : Index α β) (key : α) : ExtTreeSet β compare := (i.get? key).getD ∅

def add (i : Index α β) (key : α) (b : β) : Index α β :=
  i.alter key fun held => some ((held.getD ∅).insert b)

def drop (i : Index α β) (key : α) (b : β) : Index α β :=
  i.alter key fun held =>
    held.bind fun bs =>
      let rest := bs.erase b
      if rest.isEmpty then none else some rest

variable [LawfulEqOrd α] [LawfulEqOrd β]

theorem mem_entries_add {i : Index α β} {key k : α} {b c : β} :
    c ∈ (i.add key b).entries k ↔ (key = k ∧ b = c) ∨ c ∈ i.entries k := by
  simp only [entries, add, ExtTreeMap.get?_eq_getElem?, ExtTreeMap.getElem?_alter]
  by_cases hk : key = k
  · subst hk
    simp [ExtTreeSet.mem_insert]
  · simp [hk]

theorem mem_entries_drop {i : Index α β} {key k : α} {b c : β} :
    c ∈ (i.drop key b).entries k ↔ c ∈ i.entries k ∧ ¬(key = k ∧ b = c) := by
  simp only [entries, drop, ExtTreeMap.get?_eq_getElem?, ExtTreeMap.getElem?_alter]
  by_cases hk : key = k
  · subst hk
    rw [if_pos compare_self]
    cases i[key]? with
    | none => simp
    | some bs =>
      -- a set that became empty is not kept, which no reader can tell
      have hrest : (if (bs.erase b).isEmpty then none else some (bs.erase b)).getD ∅ =
          bs.erase b := by
        split
        · next h => exact (ExtTreeSet.isEmpty_iff.mp h).symm
        · rfl
      show c ∈ (if (bs.erase b).isEmpty then none else some (bs.erase b)).getD ∅ ↔ _
      rw [hrest, ExtTreeSet.mem_erase]
      simp [and_comm]
  · simp [hk]

/-- An entry added under each of some keys. -/
theorem mem_entries_addAll {i : Index α β} {keys : List α} {k : α} {b c : β} :
    c ∈ (keys.foldl (fun i key => i.add key b) i).entries k ↔
      (k ∈ keys ∧ b = c) ∨ c ∈ i.entries k := by
  induction keys generalizing i with
  | nil => simp
  | cons key keys ih =>
    rw [List.foldl_cons, ih, mem_entries_add, List.mem_cons]
    grind

theorem mem_entries_dropAll {i : Index α β} {keys : List α} {k : α} {b c : β} :
    c ∈ (keys.foldl (fun i key => i.drop key b) i).entries k ↔
      c ∈ i.entries k ∧ ¬(k ∈ keys ∧ b = c) := by
  induction keys generalizing i with
  | nil => simp
  | cons key keys ih =>
    rw [List.foldl_cons, ih, mem_entries_drop, List.mem_cons]
    grind

end Index

/-! ### Edges by their ends -/

/-- The edges at each node, kind by kind. -/
structure Adjacency where
  byKind : ExtTreeMap EdgeKind (Index NodeId EdgeId) compare := ∅

namespace Adjacency

def edges (a : Adjacency) (kind : EdgeKind) (node : NodeId) : ExtTreeSet EdgeId compare :=
  Index.entries ((a.byKind.get? kind).getD ∅) node

def insert (a : Adjacency) (kind : EdgeKind) (node : NodeId) (edge : EdgeId) : Adjacency where
  byKind := a.byKind.alter kind fun held => some (Index.add (held.getD ∅) node edge)

def remove (a : Adjacency) (kind : EdgeKind) (node : NodeId) (edge : EdgeId) : Adjacency where
  byKind := a.byKind.alter kind fun held => held.map fun perNode => Index.drop perNode node edge

variable {a : Adjacency} {kind k : EdgeKind} {node n : NodeId} {edge e : EdgeId}

theorem mem_edges_insert :
    e ∈ (a.insert kind node edge).edges k n ↔
      (kind = k ∧ node = n ∧ edge = e) ∨ e ∈ a.edges k n := by
  simp only [edges, insert, ExtTreeMap.get?_eq_getElem?, ExtTreeMap.getElem?_alter,
    Std.compare_eq_iff_eq]
  by_cases hk : kind = k
  · subst hk
    simp [Index.mem_entries_add]
  · simp [hk]

theorem mem_edges_remove :
    e ∈ (a.remove kind node edge).edges k n ↔
      e ∈ a.edges k n ∧ ¬(kind = k ∧ node = n ∧ edge = e) := by
  simp only [edges, remove, ExtTreeMap.get?_eq_getElem?, ExtTreeMap.getElem?_alter,
    Std.compare_eq_iff_eq]
  by_cases hk : kind = k
  · subst hk
    cases a.byKind[kind]? with
    | none => simp [Index.entries]
    | some perNode => simp [Index.mem_entries_drop]
  · simp [hk]

variable {κ : Type} {edges : ExtTreeMap EdgeId (Edge κ) compare} {endOf : Edge κ → NodeId}

/-- **An adjacency is right** if it has each edge under its kind and one of its ends, and no other
entry. -/
def Lists (a : Adjacency) (edges : ExtTreeMap EdgeId (Edge κ) compare)
    (endOf : Edge κ → NodeId) : Prop :=
  ∀ (kind : EdgeKind) (node : NodeId) (id : EdgeId),
    id ∈ a.edges kind node ↔ ∃ e : Edge κ, edges[id]? = some e ∧ e.kind = kind ∧ endOf e = node

theorem lists_empty : ({} : Adjacency).Lists (∅ : ExtTreeMap EdgeId (Edge κ) compare) endOf := by
  simp [Lists, Adjacency.edges, Index.entries]

/-- The adjacency without an edge that is to go, if there was one. -/
def without (a : Adjacency) (endOf : Edge κ → NodeId) (id : EdgeId) : Option (Edge κ) → Adjacency
  | some old => a.remove old.kind (endOf old) id
  | none => a

theorem Lists.without (h : a.Lists edges endOf) (id : EdgeId) :
    (a.without endOf id (edges.get? id)).Lists (edges.erase id) endOf := by
  intro kind node i
  simp only [ExtTreeMap.get?_eq_getElem?, ExtTreeMap.getElem?_erase, Std.compare_eq_iff_eq]
  cases hold : edges[id]? with
  | none =>
    rw [Adjacency.without, h]
    by_cases hi : id = i
    · subst hi
      simp [hold]
    · simp [hi]
  | some old =>
    rw [Adjacency.without, mem_edges_remove, h]
    by_cases hi : id = i
    · subst hi
      simp [hold]
    · simp [hi]

theorem Lists.insert {e : Edge κ} (h : a.Lists (edges.erase e.id) endOf) :
    (a.insert e.kind (endOf e) e.id).Lists (edges.insert e.id e) endOf := by
  intro kind node i
  rw [mem_edges_insert, h]
  simp only [ExtTreeMap.getElem?_insert, ExtTreeMap.getElem?_erase, Std.compare_eq_iff_eq]
  by_cases hi : e.id = i
  · simp [hi]
  · simp [hi]

end Adjacency

/-! ### Nodes by their keys -/

/-- The nodes under each lookup key. -/
abbrev Symbols := Index LookupKey NodeId

namespace Symbols

def insert (s : Symbols) (n : Node) : Symbols :=
  n.lookupKeys.foldl (fun s key => Index.add s key n.id) s

/-- The index without a node that is to go, if there was one. -/
def without (s : Symbols) (id : NodeId) : Option Node → Symbols
  | some old => old.lookupKeys.foldl (fun s key => Index.drop s key id) s
  | none => s

/-- **A symbol index is right** if it has each node under the keys read off it, and no other
entry. -/
def Lists (s : Symbols) (nodes : ExtTreeMap NodeId Node compare) : Prop :=
  ∀ (key : LookupKey) (id : NodeId),
    id ∈ Index.entries s key ↔ ∃ n : Node, nodes[id]? = some n ∧ key ∈ n.lookupKeys

theorem lists_empty : Lists ∅ ∅ := by
  simp [Lists, Index.entries]

variable {s : Symbols} {nodes : ExtTreeMap NodeId Node compare}

theorem Lists.without (h : Lists s nodes) (id : NodeId) :
    Lists (Symbols.without s id (nodes.get? id)) (nodes.erase id) := by
  intro key i
  simp only [ExtTreeMap.get?_eq_getElem?, ExtTreeMap.getElem?_erase, Std.compare_eq_iff_eq]
  cases hold : nodes[id]? with
  | none =>
    rw [Symbols.without, h]
    by_cases hi : id = i
    · subst hi
      simp [hold]
    · simp [hi]
  | some old =>
    rw [Symbols.without, Index.mem_entries_dropAll, h]
    by_cases hi : id = i
    · subst hi
      simp [hold]
    · simp [hi]

theorem Lists.insert {n : Node} (h : Lists s (nodes.erase n.id)) :
    Lists (Symbols.insert s n) (nodes.insert n.id n) := by
  intro key i
  rw [Symbols.insert, Index.mem_entries_addAll, h]
  simp only [ExtTreeMap.getElem?_insert, ExtTreeMap.getElem?_erase, Std.compare_eq_iff_eq]
  by_cases hi : n.id = i
  · simp [hi]
  · simp [hi]

end Symbols

end AppAtlas
