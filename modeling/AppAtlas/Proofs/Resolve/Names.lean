import AppAtlas.Proofs.Text.Cuts
import AppAtlas.Proofs.Text.LetterCase
import AppAtlas.Resolve.Search

/-!
# Names and the keys they stand under

A search looks under one key and also asks for nodes of exact identities.  Those identities are
noted nowhere, so the search depends only on its keys if each of them stands under the key that is
looked up.  This is a matter of how signatures are spelled.

* `Target.probes`, `Target.probeKey`: the identities asked for, and the key looked up first.
* `Target.Covered`: each of the identities stands under the key.
* `Target.Regular.covered`: it does when members and columns have plain names, owners have no slash
  and the full names of a type end in its simple name.
-/

namespace AppAtlas

open List Text

/-! ### Signatures -/

theorem toList_toString (n : Nat) : (toString n).toList = Nat.toDigits 10 n := by simp

/-- **The short name of a method is the name of the member**, whatever its owner and its number of
parameters. -/
theorem displayName_methodSignature {owner member : String} (arity : Nat)
    (howner : '/' ∉ owner.toList) (hslash : '/' ∉ member.toList) (hdot : '.' ∉ member.toList)
    (hne : member ≠ "") : displayName (methodSignature owner member arity) = member := by
  have hdigits : ∀ c ∈ Nat.toDigits 10 arity, c.isDigit = true := fun c hc =>
    Nat.isDigit_of_mem_toDigits (by decide) (by decide) hc
  have hnoslash : '/' ∉ Nat.toDigits 10 arity := fun h => absurd (hdigits '/' h) (by decide)
  have hchars : (methodSignature owner member arity).toList =
      (owner.toList ++ '.' :: member.toList) ++ '/' :: Nat.toDigits 10 arity := by
    simp only [methodSignature, String.toList_append, toList_toString]
    simp
  have hbase : (owner.toList ++ '.' :: member.toList).contains '/' = false := by
    rw [← Bool.not_eq_true, contains_iff_mem, mem_append, mem_cons]
    rintro (h | h | h)
    · exact howner h
    · cases h
    · exact hslash h
  have hmember : member.toList.isEmpty = false := by
    rw [isEmpty_eq_false_iff]
    exact fun h => hne (String.toList_eq_nil_iff.mp h)
  have hcount : (Nat.toDigits 10 arity).isEmpty = false := by
    rw [isEmpty_eq_false_iff]
    exact Nat.toDigits_ne_nil
  have hall : (Nat.toDigits 10 arity).all Char.isDigit := all_eq_true.mpr hdigits
  rw [displayName, onString, hchars, displayChars, cutLast_append _ hnoslash]
  simp only [hcount, hall, hbase, Bool.not_false, Bool.and_self, if_true, Bool.false_eq_true,
    if_false, afterLast_append _ hdot, hmember, String.ofList_toList]

theorem lastPart_append {front name : String} (h : '.' ∉ name.toList) :
    lastPart (front ++ "." ++ name) = name := by
  have hchars : (front ++ "." ++ name).toList = front.toList ++ '.' :: name.toList := by
    simp only [String.toList_append]
    simp
  rw [lastPart, onString, hchars, afterLast_append _ h, String.ofList_toList]

theorem NodeKind.signatureKeys_congr {k k' : NodeKind} (h : k.space = k'.space)
    (signature : String) : k.signatureKeys signature = k'.signatureKeys signature := by
  cases k <;> cases k' <;> first | rfl | exact absurd h (by decide)

/-! ### Probes -/

namespace Target

/-- The identities that are asked for when a target is searched. -/
def probes : Target → List (NodeKind × String)
  | member (some owner) name (some arity) _ =>
    owner.fullNames.map fun full => (.serviceMethod, methodSignature full name arity)
  | member _ _ _ _ => []
  | type t _ => t.fullNames.map fun full => (.service, full)
  | route _ _ => []
  | resource path => [(.page, path)]
  | statement id => [(.statement, id)]
  | table name => [(.table, tableName name)]
  | tablePattern _ => []
  | column owner name candidates =>
    (owner.toList ++ candidates).map fun t =>
      (.column, tableName t ++ "." ++ lowerString name)

/-- The key that is looked up before any identity is asked for. -/
def probeKey : Target → LookupKey
  | member _ name _ _ => .member (lowerString name)
  | type t _ => .type (lowerString t.simpleName)
  | route path _ => .route (Route.stem (Route.normalize path))
  | resource path => .page (lowerString (displayName path))
  | statement id => .statement (lowerString (lastPart id))
  | table name => .table (tableName name)
  | tablePattern _ => .kind .table
  | column _ name _ => .column (lowerString name)

/-- **The identities asked for stand under the key looked up.** -/
def Covered (t : Target) : Prop :=
  ∀ probe ∈ t.probes, t.probeKey ∈ probe.1.signatureKeys probe.2

/-- The names of a target are as the languages spell them: a member with a known number of
parameters has a plain name and an owner without a slash, the full names of a type end in its simple
name, and a column has no dot in its name. -/
def Regular : Target → Prop
  | member owner name (some _) _ =>
    name ≠ "" ∧ '.' ∉ name.toList ∧ '/' ∉ name.toList ∧
      ∀ t ∈ owner, ∀ full ∈ t.fullNames, '/' ∉ full.toList
  | type t _ => ∀ full ∈ t.candidates, lastPart full = t.simpleName
  | column _ name _ => '.' ∉ name.toList
  | _ => True

instance : DecidablePred Regular := fun t =>
  match t with
  | member none _ (some _) _ => inferInstanceAs (Decidable (_ ∧ _ ∧ _ ∧ _))
  | member (some _) _ (some _) _ => inferInstanceAs (Decidable (_ ∧ _ ∧ _ ∧ _))
  | type _ _ => inferInstanceAs (Decidable (∀ _ ∈ _, _))
  | column _ _ _ => inferInstanceAs (Decidable (¬_))
  | member _ _ none _ | route _ _ | resource _ | statement _ | table _ | tablePattern _ =>
    inferInstanceAs (Decidable True)

theorem lastPart_of_mem_fullNames {t : TypeRef}
    (h : ∀ full ∈ t.candidates, lastPart full = t.simpleName) :
    ∀ full ∈ t.fullNames, lastPart full = t.simpleName := by
  intro full hfull
  rw [TypeRef.fullNames] at hfull
  split at hfull
  · rw [mem_singleton.mp hfull]
    rfl
  · exact h full hfull

theorem Regular.covered {t : Target} (h : t.Regular) : t.Covered := by
  intro probe hprobe
  cases t with
  | member owner name arity kinds =>
    cases owner with
    | none => cases hprobe
    | some owner =>
      cases arity with
      | none => cases hprobe
      | some arity =>
        obtain ⟨full, hfull, rfl⟩ := mem_map.mp hprobe
        obtain ⟨hne, hdot, hslash, howner⟩ := h
        have hname :=
          displayName_methodSignature arity (howner owner rfl full hfull) hslash hdot hne
        show LookupKey.member _ ∈ [LookupKey.member (lowerString (displayName _))]
        rw [hname]
        exact mem_singleton_self _
  | type t kinds =>
    obtain ⟨full, hfull, rfl⟩ := mem_map.mp hprobe
    show LookupKey.type _ ∈ [LookupKey.type (lowerString (lastPart full))]
    rw [lastPart_of_mem_fullNames h full hfull]
    exact mem_singleton_self _
  | route path verb => cases hprobe
  | resource path =>
    rw [mem_singleton.mp hprobe]
    exact mem_singleton_self _
  | statement id =>
    rw [mem_singleton.mp hprobe]
    exact mem_singleton_self _
  | table name =>
    rw [mem_singleton.mp hprobe]
    show LookupKey.table _ ∈ [LookupKey.table (lowerString (tableName name))]
    rw [tableName, lowerString_lowerString]
    exact mem_singleton_self _
  | tablePattern pattern => cases hprobe
  | column table name candidates =>
    obtain ⟨t, ht, rfl⟩ := mem_map.mp hprobe
    have hdot : '.' ∉ (lowerString name).toList := by
      rw [lowerString, toList_onString]
      exact mt (mem_lower_iff (by decide)).mp h
    show LookupKey.column _ ∈ [LookupKey.column (lowerString (lastPart _))]
    rw [lastPart_append hdot, lowerString_lowerString]
    exact mem_singleton_self _

end Target

end AppAtlas
