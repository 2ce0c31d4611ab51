import AppAtlas.Proofs.Sql.Elements

/-!
# Primary keys with a name

The columns of a primary key are taken from an element that starts with `PRIMARY`.  An element that
starts with `CONSTRAINT` is passed over, so a key that is given a name is lost: its columns are
declared as if there were no key.

* `OpenDeclaration.declaredColumns_key`, `OpenDeclaration.declaredColumns_constraint`: what a key
  and a constraint do to the columns.
* `named_key_not_applied`: what the name takes away.
-/

namespace AppAtlas.Sql

open List

/-! ### A declaration with a place for an element -/

/-- **A declaration with a place for one more element**: the elements before it with the comma
behind each of them, and those after it with the comma before each of them. -/
structure OpenDeclaration extends DeclarationHead where
  opening : Token
  before : List (List Token × Token)
  after : List (Token × List Token)
  closing : Token
  rest : List Token
  isPunct_opening : opening.isPunct '(' = true := by decide
  isElement_before : ∀ p ∈ before, IsElement p.1 ∧ p.2.isPunct ',' = true
  isElement_after : ∀ p ∈ after, p.1.isPunct ',' = true ∧ IsElement p.2
  isPunct_closing : closing.isPunct ')' = true := by decide
  isKeyword_rest : ∀ t ∈ rest, t.isKeyword ["create"] = false := by decide

namespace OpenDeclaration

variable (d : OpenDeclaration)

def front : List Token :=
  d.create :: (d.tokens ++ d.opening :: d.before.flatMap fun p => p.1 ++ [p.2])

def back : List Token :=
  (d.after.flatMap fun p => p.1 :: p.2) ++ d.closing :: d.rest

def others : List (List Token) :=
  d.before.map Prod.fst ++ d.after.map Prod.snd

/-- **The table that is declared** with an element in that place, wherever the tokens stand. -/
theorem declarations_eq {e ts : List Token} (he : IsElement e)
    (hts : ts.map (·.onLine 1) = (e ++ d.back).map (·.onLine 1)) : declarations 0 (d.front ++ ts) =
      [d.declared (declaredColumns (d.before.map Prod.fst ++ e :: d.after.map Prod.snd))] := by
  have hback : e ++ d.back =
      (e ++ ((d.after.flatMap fun p => p.1 :: p.2) ++ [d.closing])) ++ d.rest := by
    simp [back]
  rw [hback, map_append] at hts
  obtain ⟨us, vs, rfl, hus, hvs⟩ := map_eq_append_iff.mp hts
  have hcreate : declarations 0 vs = [] := by
    refine declarations_of_forall fun t ht => ?_
    obtain ⟨u, hu, hut⟩ : ∃ u ∈ d.rest, u.onLine 1 = t.onLine 1 :=
      mem_map.mp (hvs ▸ mem_map_of_mem ht)
    rw [← isKeyword_onLine 1 t, ← hut]
    exact d.isKeyword_rest u hu
  have hlines : (d.tokens ++ d.opening :: ((d.before.flatMap fun p => p.1 ++ [p.2]) ++ us)).map
      (·.onLine 1) = (d.tokens ++ d.opening :: ((d.before.flatMap fun p => p.1 ++ [p.2]) ++
        (e ++ ((d.after.flatMap fun p => p.1 :: p.2) ++ [d.closing])))).map (·.onLine 1) := by
    simp [hus]
  have hread := d.declarations_append d.isPunct_opening d.isPunct_closing d.isElement_before he
    d.isElement_after hlines vs
  rw [hcreate] at hread
  rw [← hread]
  simp [front]

end OpenDeclaration

/-! ### Keys -/

/-- **A key of a table**: `PRIMARY KEY` with a list of columns. -/
structure KeyElement where
  primary : Token
  key : Token
  opening : Token
  /-- The names of the columns, with commas. -/
  inside : List Token
  closing : Token
  isKeyword_primary : primary.isKeyword ["primary"] = true := by decide
  isKeyword_key : key.isKeyword ["key"] = true := by decide
  isPunct_opening : opening.isPunct '(' = true := by decide
  isNameOrComma_inside : ∀ t ∈ inside, (t.isPlainName || t.isPunct ',') = true := by decide
  isPunct_closing : closing.isPunct ')' = true := by decide

namespace KeyElement

variable (k : KeyElement)

/-- The key of the columns with some names, which commas part. -/
def ofNames (inside : List Token)
    (h : ∀ t ∈ inside, (t.isPlainName || t.isPunct ',') = true) : KeyElement where
  primary := .ofWord "PRIMARY"
  key := .ofWord "KEY"
  opening := .ofMark '('
  inside := inside
  closing := .ofMark ')'
  isNameOrComma_inside := h

def tokens : List Token :=
  k.primary :: k.key :: k.opening :: (k.inside ++ [k.closing])

def columns : List String :=
  (k.inside.filter Token.isPlainName).map Token.lowerText

theorem isElement : IsElement k.tokens := by
  refine .cons (isName_of_isKeyword k.isKeyword_primary) (.cons (isName_of_isKeyword k.isKeyword_key)
    (.parenthesized k.isPunct_opening k.isPunct_closing ?_ .nil))
  intro t ht
  rcases Bool.or_eq_true_iff.mp (k.isNameOrComma_inside t ht) with hname | hcomma
  · have hname := (Bool.and_eq_true_iff.mp hname).1
    exact ⟨not_isPunct_of_isName hname _, not_isPunct_of_isName hname _⟩
  · exact ⟨not_isPunct_of_isPunct hcomma (by decide), not_isPunct_of_isPunct hcomma (by decide)⟩

theorem primaryNames_tokens : primaryNames k.tokens = k.columns := by
  have hmark : ∀ {t : Token} {mark : Char}, t.isPunct mark → t.isPlainName = false := by
    intro t mark ht
    rw [← Bool.not_eq_true]
    intro hname
    exact not_isPunct_of_isName (Bool.and_eq_true_iff.mp hname).1 mark ht
  rw [tokens, primaryNames, if_pos k.isKeyword_primary, drop_one, tail_cons, columns]
  simp [hmark k.isPunct_opening, hmark k.isPunct_closing]

theorem declaredColumn?_tokens : declaredColumn? k.tokens = none := by
  rw [tokens, declaredColumn?, if_pos (isKeyword_of_subset k.isKeyword_primary (by simp))]

end KeyElement

theorem withKey_append (a k b : List String) (c : DeclaredColumn) :
    c.withKey (a ++ (k ++ b)) = (c.withKey (a ++ b)).withKey k := by
  by_cases hk : c.name ∈ k <;> by_cases hab : c.name ∈ a ∨ c.name ∈ b <;>
    simp_all [DeclaredColumn.withKey]

theorem OpenDeclaration.declaredColumns_key (d : OpenDeclaration) (k : KeyElement) :
    declaredColumns (d.before.map Prod.fst ++ k.tokens :: d.after.map Prod.snd) =
      (declaredColumns d.others).map (·.withKey k.columns) := by
  simp [declaredColumns, others, k.declaredColumn?_tokens, k.primaryNames_tokens, withKey_append,
    Function.comp_def]

theorem OpenDeclaration.declaredColumns_constraint (d : OpenDeclaration) {constraint : Token}
    (h : constraint.isKeyword ["constraint"]) (rest : List Token) :
    declaredColumns (d.before.map Prod.fst ++ (constraint :: rest) :: d.after.map Prod.snd) =
      declaredColumns d.others := by
  have hnone : declaredColumn? (constraint :: rest) = none := by
    rw [declaredColumn?, if_pos (isKeyword_of_subset h (by simp))]
  have hnames : primaryNames (constraint :: rest) = [] := by
    obtain ⟨keyword, hmem, hkeyword⟩ := isKeyword_eq_true_iff.mp h
    obtain rfl := mem_singleton.mp hmem
    simp [primaryNames, Token.isKeyword, hkeyword]
  simp [declaredColumns, others, hnone, hnames]

theorem nullable_of_declaredColumn? {e : List Token} {c : DeclaredColumn}
    (hc : declaredColumn? e = some c) (hkey : c.key = some .primary) : c.nullable = false := by
  cases e with
  | nil => cases hc
  | cons head rest =>
    rw [declaredColumn?] at hc
    split at hc
    · cases hc
    split at hc
    · cases hc
    cases hc
    simp_all

theorem nullable_of_mem_declaredColumns {es : List (List Token)} {c : DeclaredColumn}
    (hc : c ∈ declaredColumns es) (hkey : c.key = some .primary) : c.nullable = false := by
  obtain ⟨b, hb, rfl⟩ := mem_map.mp hc
  obtain ⟨e, -, he⟩ := mem_filterMap.mp hb
  rw [DeclaredColumn.withKey] at hkey ⊢
  split at hkey
  · next hname => rw [if_pos hname]
  · next hname =>
    rw [if_neg hname]
    exact nullable_of_declaredColumn? he hkey

theorem withKey_eq_self_iff {c : DeclaredColumn}
    (hnullable : c.key = some .primary → c.nullable = false) (k : List String) :
    c.withKey k = c ↔ (c.name ∈ k → c.key = some .primary) := by
  by_cases hname : c.name ∈ k
  · rw [DeclaredColumn.withKey, if_pos (by simpa using hname)]
    constructor
    · intro h _
      rw [← h]
    · intro h
      have hkey := h hname
      rw [← hkey, ← hnullable hkey]
  · simp [DeclaredColumn.withKey, hname]

/-- **A primary key that has a name is not applied.**  Without the name its columns become the key,
and none of them can be null.  So the name changes nothing exactly if all of them are declared as
the key elsewhere, too. -/
theorem named_key_not_applied {unnamed named : String} {d : OpenDeclaration} {k : KeyElement}
    {constraint name : Token} {ts : List Token}
    (hconstraint : constraint.isKeyword ["constraint"] = true) (hname : name.isPlainName = true)
    (hunnamed : (tokenize unnamed).tokens = d.front ++ (k.tokens ++ d.back))
    (hnamed : (tokenize named).tokens = d.front ++ constraint :: name :: ts)
    (hts : ts.map (·.onLine 1) = (k.tokens ++ d.back).map (·.onLine 1)) :
    (declaredTables named).1 = [d.declared (declaredColumns d.others)] ∧
    (declaredTables unnamed).1 =
      [d.declared ((declaredColumns d.others).map (·.withKey k.columns))] ∧
    ((declaredTables named).1 = (declaredTables unnamed).1 ↔
      ∀ c ∈ declaredColumns d.others, c.name ∈ k.columns → c.key = some .primary) := by
  have hname := (Bool.and_eq_true_iff.mp hname).1
  have hkey : declarations 0 (d.front ++ (k.tokens ++ d.back)) = _ :=
    d.declarations_eq k.isElement rfl
  have hnamedKey : declarations 0 (d.front ++ constraint :: name :: ts) = _ :=
    d.declarations_eq (.cons (isName_of_isKeyword hconstraint) (.cons hname k.isElement))
      (by simpa using hts)
  rw [d.declaredColumns_key] at hkey
  rw [d.declaredColumns_constraint hconstraint] at hnamedKey
  rw [declaredTables, declaredTables, hunnamed, hnamed, hkey, hnamedKey]
  refine ⟨rfl, rfl, ?_⟩
  have hsame : [d.declared (declaredColumns d.others)] =
      [d.declared ((declaredColumns d.others).map (·.withKey k.columns))] ↔
        (declaredColumns d.others).map (·.withKey k.columns) = (declaredColumns d.others).map id := by
    simp [DeclarationHead.declared, eq_comm]
  rw [hsame, List.map_inj_left]
  exact forall₂_congr fun c hc =>
    withKey_eq_self_iff (fun hkey => nullable_of_mem_declaredColumns hc hkey) _

/-- A table with a place for a key between its two columns. -/
def keyedTable : OpenDeclaration where
  toDeclarationHead :=
    .ofName (.ofWord "CREATE") (.ofWord "t") [] (by decide) (by decide) (by simp)
  opening := .ofMark '('
  before := [([.ofWord "a", .ofWord "INT"], .ofMark ',')]
  after := [(.ofMark ',', [.ofWord "b", .ofWord "INT", .ofWord "PRIMARY", .ofWord "KEY"])]
  closing := .ofMark ')'
  rest := [.ofMark ';']
  isElement_before := by
    rw [forall_mem_singleton]
    exact ⟨.cons rfl (.cons rfl .nil), rfl⟩
  isElement_after := by
    rw [forall_mem_singleton]
    exact ⟨rfl, .cons rfl (.cons rfl (.cons rfl (.cons rfl .nil)))⟩

def keyOfBoth : KeyElement :=
  .ofNames [.ofWord "a", .ofMark ',', .ofWord "b"] (by decide)

theorem named_key_of_both_not_applied :
    (tokenize "CREATE TABLE t (a INT, PRIMARY KEY (a, b), b INT PRIMARY KEY);").tokens =
      keyedTable.front ++ (keyOfBoth.tokens ++ keyedTable.back) ∧
    (tokenize "CREATE TABLE t (a INT, CONSTRAINT k\nPRIMARY KEY (a, b), b INT PRIMARY KEY);").tokens =
      keyedTable.front ++ .ofWord "CONSTRAINT" :: .ofWord "k" ::
        (keyOfBoth.tokens ++ keyedTable.back).map (·.onLine 2) ∧
    (declaredTables
        "CREATE TABLE t (a INT, CONSTRAINT k\nPRIMARY KEY (a, b), b INT PRIMARY KEY);").1 =
      [⟨none, "t", 1, [⟨"a", some "INT", true, none⟩, ⟨"b", some "INT", false, some .primary⟩]⟩] := by
  have hunnamed : (tokenize "CREATE TABLE t (a INT, PRIMARY KEY (a, b), b INT PRIMARY KEY);").tokens =
      keyedTable.front ++ (keyOfBoth.tokens ++ keyedTable.back) := by decide +kernel
  have hnamed : (tokenize
      "CREATE TABLE t (a INT, CONSTRAINT k\nPRIMARY KEY (a, b), b INT PRIMARY KEY);").tokens =
        keyedTable.front ++ .ofWord "CONSTRAINT" :: .ofWord "k" ::
          (keyOfBoth.tokens ++ keyedTable.back).map (·.onLine 2) := by decide +kernel
  have hdeclared := (named_key_not_applied (by decide) (by decide) hunnamed hnamed (by decide)).1
  refine ⟨hunnamed, hnamed, hdeclared.trans ?_⟩
  decide

/-- **A key is lost with its name.** -/
theorem named_key_lost :
    (declaredTables "CREATE TABLE t (a INT, PRIMARY KEY (a))").1 =
        [⟨none, "t", 1, [⟨"a", some "INT", false, some .primary⟩]⟩] ∧
      (declaredTables "CREATE TABLE t (a INT, CONSTRAINT k PRIMARY KEY (a))").1 =
        [⟨none, "t", 1, [⟨"a", some "INT", true, none⟩]⟩] := by
  decide +kernel

end AppAtlas.Sql
