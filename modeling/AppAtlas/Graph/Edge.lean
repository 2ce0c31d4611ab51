import AppAtlas.Confidence
import AppAtlas.Identity
import Std.Data.ExtTreeSet

/-! # Edges

An edge says that its source depends on its target. It carries a confidence and the places in files
that speak for it. Contributions of several files to one edge are joined: the greatest confidence
counts, and the evidence is the set of all that was given, listed in order.
-/

namespace AppAtlas

structure Evidence where
  file : String
  line : Nat
  note : Option String := none
  /-- The signatures among which the target was chosen, when there were several. -/
  candidates : List String := []
deriving DecidableEq, Repr

namespace Evidence

def order : Evidence → Evidence → Ordering :=
  compareLex (compareOn file) (compareLex (compareOn line)
    (compareLex (compareOn note) (compareOn candidates)))

instance : Ord Evidence := ⟨order⟩

instance : Std.TransOrd Evidence :=
  inferInstanceAs (Std.TransCmp (compareLex (compareOn file) (compareLex (compareOn line)
    (compareLex (compareOn note) (compareOn candidates)))))

instance : Std.LawfulEqOrd Evidence where
  compare_self := Std.ReflCmp.compare_self
  eq_of_compare {a b} h := by
    change order a b = .eq at h
    simp only [order, compareLex_eq_eq, compareOn] at h
    cases a; cases b
    simp only [mk.injEq]
    exact ⟨Std.LawfulEqOrd.eq_of_compare h.1, Std.LawfulEqOrd.eq_of_compare h.2.1,
      Std.LawfulEqOrd.eq_of_compare h.2.2.1, Std.LawfulEqOrd.eq_of_compare h.2.2.2⟩

end Evidence

def sortedSet {α : Type} [Ord α] [Std.TransOrd α] (xs : List α) : List α :=
  (Std.ExtTreeSet.ofList xs compare).toList

theorem mem_sortedSet {α : Type} [Ord α] [Std.TransOrd α] [Std.LawfulEqOrd α] [DecidableEq α]
    {a : α} {xs : List α} : a ∈ sortedSet xs ↔ a ∈ xs := by
  rw [sortedSet, Std.ExtTreeSet.mem_toList, Std.ExtTreeSet.mem_ofList, List.contains_iff_mem]

structure Edge (κ : Type) where
  id : EdgeId
  source : NodeId
  target : NodeId
  kind : EdgeKind
  confidence : κ
  evidence : List Evidence
deriving DecidableEq

namespace Edge

variable {κ : Type}

/-- An edge between two nodes, with one place that speaks for it. -/
def of (source target : NodeId) (kind : EdgeKind) (confidence : κ) (evidence : Evidence) : Edge κ where
  id := EdgeId.of source target kind
  source := source
  target := target
  kind := kind
  confidence := confidence
  evidence := [evidence]

def settle (e : Edge κ) : Edge κ :=
  { e with evidence := sortedSet e.evidence }

def merge [Confidence κ] (e other : Edge κ) : Edge κ :=
  { e with
    confidence := Confidence.max e.confidence other.confidence
    evidence := sortedSet (e.evidence ++ other.evidence) }

end Edge

end AppAtlas
