import AppAtlas.Document.Json
import AppAtlas.Proofs.Json.RoundTrip
import AppAtlas.Proofs.OrderedMap

/-!
# Nodes, evidence and lookups as texts

Attributes, evidence, placeholders and lookups are kept as JSON texts.  Each of them is read back
from its text.  Two things are needed: the value that is written is one that a text can hold
(`Json.Value.Whole`), and the fields of a record are found again under their names.

Line numbers are the only numbers in these values, and they have to be below `2 ^ 32`.
-/

namespace AppAtlas

open List
open Json (Value)
open Std (ExtTreeMap ExtTreeSet TransOrd LawfulEqOrd compare_self)

/-! ### Lists -/

theorem mapM_map_eq_pure {m : Type → Type} [Monad m] [LawfulMonad m] {α β : Type} {write : α → β}
    {read : β → m α} {xs : List α} (h : ∀ x ∈ xs, read (write x) = pure x) :
    (xs.map write).mapM read = pure xs := by
  induction xs with
  | nil => rfl
  | cons x xs ih =>
    rw [map_cons, mapM_cons, h x mem_cons_self, pure_bind,
      ih fun y hy => h y (mem_cons_of_mem x hy), pure_bind]

theorem Json.Value.list?_ofList {α : Type} {write : α → Value} {read : Value → Option α}
    {xs : List α} (h : ∀ x ∈ xs, read (write x) = some x) :
    (Value.ofList write xs).list? read = some xs :=
  mapM_map_eq_pure h

theorem Json.Value.whole_ofList {α : Type} {write : α → Value} {xs : List α}
    (h : ∀ x ∈ xs, (write x).Whole) : (Value.ofList write xs).Whole := by
  refine .array fun v hv => ?_
  obtain ⟨x, hx, rfl⟩ := mem_map.mp hv
  exact h x hx

/-! ### Line numbers -/

/-- A line number that fits in 32 bits. -/
def IsLine (n : Nat) : Prop := n < Nat.pow 2 32

instance (n : Nat) : Decidable (IsLine n) := inferInstanceAs (Decidable (n < _))

theorem IsLine.whole {n : Nat} (h : IsLine n) : (Value.ofNat n).Whole := by
  refine .natural ⟨?_, fun hneg => Bool.noConfusion hneg⟩
  have hword : Nat.pow 2 32 ≤ Json.wordMax := by decide
  exact (Nat.le_of_lt h).trans hword

theorem IsLine.natural? {n : Nat} (h : IsLine n) : (Value.ofNat n).natural? 32 = some n :=
  if_pos h

def LineRange.Fits (r : LineRange) : Prop := IsLine r.start ∧ IsLine r.stop

instance (r : LineRange) : Decidable r.Fits := inferInstanceAs (Decidable (_ ∧ _))

theorem LineRange.lineRange?_toJson {r : LineRange} (h : r.Fits) :
    r.toJson.lineRange? = some r := by
  have hrecord : r.toJson.record? ["start", "end"] =
      some ⟨false, [("start", .ofNat r.start), ("end", .ofNat r.stop)]⟩ := rfl
  rw [Value.lineRange?, hrecord]
  show ((Value.ofNat r.start).natural? 32).bind _ = _
  rw [h.1.natural?]
  show ((Value.ofNat r.stop).natural? 32).bind _ = _
  rw [h.2.natural?]
  rfl

/-! ### Attributes -/

theorem Attributes.whole_toJson (a : Attributes) : (Attributes.toJson a).Whole := by
  refine .object fun f hf => ?_
  obtain ⟨x, -, rfl⟩ := mem_map.mp hf
  exact .string x.2

theorem Attributes.attributes?_toJson (a : Attributes) :
    (Attributes.toJson a).attributes? = some a := by
  have hentries : (Attributes.toJson a).entries? Value.string? = some a.toList :=
    mapM_map_eq_pure fun x _ => rfl
  rw [Value.attributes?, hentries]
  exact congrArg some (OrderedMap.ofList_toList a)

/-! ### Nodes -/

theorem Node.whole_toJson {n : Node} (h : n.lines.Fits) : n.toJson.Whole := by
  refine .object fun f hf => ?_
  simp only [mem_cons, not_mem_nil, or_false] at hf
  rcases hf with rfl | rfl | rfl | rfl | rfl | rfl | rfl
  · exact .string _
  · exact .string _
  · cases n.file with
    | none => exact .null
    | some s => exact .string s
  · refine .object fun f hf => ?_
    simp only [mem_cons, not_mem_nil, or_false] at hf
    rcases hf with rfl | rfl
    · exact h.1.whole
    · exact h.2.whole
  · exact .string _
  · exact .string _
  · exact Attributes.whole_toJson n.attributes

theorem Json.Value.nodeKind?_name (k : NodeKind) : (Value.string k.name).nodeKind? = some k := by
  rw [Value.nodeKind?, Value.constant?, Option.bind_some, NodeKind.ofName?_name]

theorem Json.Value.nodeId?_text (id : NodeId) : (Value.string id.text).nodeId? = some id := by
  rw [Value.nodeId?, Value.string?, Option.bind_eq_bind, Option.bind_some, NodeId.parse_text]
  rfl

theorem Json.Value.option?_ofString? (s : Option String) :
    (Value.ofString? s).option? Value.string? = some s := by
  cases s <;> rfl

/-- **Nodes are read back.** -/
theorem Node.node?_toJson {n : Node} (h : n.lines.Fits) : n.toJson.node? = some n := by
  simp [Node.toJson, Value.node?, Value.record?, Json.Record.required, Json.Record.optional,
    Json.Record.field?, lookup_cons, Value.nodeId?_text, Value.nodeKind?_name,
    Value.option?_ofString?, LineRange.lineRange?_toJson h, Attributes.attributes?_toJson,
    Value.string?]

/-! ### Evidence -/

theorem Evidence.whole_toJson {e : Evidence} (h : IsLine e.line) : e.toJson.Whole := by
  refine .object fun f hf => ?_
  simp only [mem_append, mem_cons, not_mem_nil, or_false] at hf
  rcases hf with ((rfl | rfl) | hf) | hf
  · exact .string _
  · exact h.whole
  · obtain ⟨s, -, rfl⟩ := Option.map_eq_some_iff.mp (Option.mem_toList.mp hf)
    exact .string s
  · split at hf
    · cases hf
    · obtain rfl := mem_singleton.mp hf
      exact Value.whole_ofList fun s _ => .string s

theorem Json.Value.list?_ofStrings (ss : List String) :
    (Value.ofStrings ss).list? Value.string? = some ss :=
  mapM_map_eq_pure fun _ _ => rfl

/-- **Evidence is read back.** -/
theorem Evidence.evidence?_toJson {e : Evidence} (h : IsLine e.line) :
    e.toJson.evidence? = some e := by
  obtain ⟨file, line, note, candidates⟩ := e
  have hline := IsLine.natural? h
  cases note <;> cases candidates <;>
    simp [Evidence.toJson, Value.evidence?, Value.record?, Json.Record.required,
      Json.Record.defaulted, Json.Record.field?, lookup_cons, lookup_nil, Value.string?,
      Value.option?, Value.list?_ofStrings, hline]

/-! ### Lookups -/

theorem LookupKey.whole_toJson (k : LookupKey) : k.toJson.Whole := by
  refine .object fun f hf => ?_
  simp only [mem_cons, not_mem_nil, or_false] at hf
  rcases hf with rfl | rfl <;> exact .string _

theorem LookupKey.lookupKey?_toJson (k : LookupKey) : k.toJson.lookupKey? = some k := by
  cases k <;>
    simp [LookupKey.toJson, Value.lookupKey?, Value.record?, Json.Record.required,
      Json.Record.field?, lookup_cons, Value.string?, LookupKey.sort, LookupKey.name,
      Value.nodeKind?_name]

/-- **Lookups are read back.** -/
theorem LookupKeys.lookupKeys?_toJson (keys : LookupKeys) :
    (LookupKeys.toJson keys).lookupKeys? = some keys := by
  have hlist : (LookupKeys.toJson keys).list? Value.lookupKey? = some keys.toList :=
    Value.list?_ofList fun k _ => k.lookupKey?_toJson
  rw [Value.lookupKeys?, hlist]
  refine congrArg some (ExtTreeSet.ext_mem fun k => ?_)
  rw [ExtTreeSet.mem_ofList, contains_iff_mem, ExtTreeSet.mem_toList]

end AppAtlas
