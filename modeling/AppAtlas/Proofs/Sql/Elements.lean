import AppAtlas.Proofs.Sql.Layout
import AppAtlas.Proofs.Sql.Parentheses
import AppAtlas.Proofs.Sql.References
import AppAtlas.Sql.Schema

/-!
# The elements of a table's declaration

A declaration is read in its head, up to the name of the table, and in its elements, which are what
stands between the commas directly inside the parentheses.  All that is read is the sort and the
text of tokens, so it does not matter on which lines they stand.

* `IsElement`, `elements_before`, `elements_after`: the elements between commas.
* `DeclarationHead.declarations_append`: a declaration and what follows it.
-/

namespace AppAtlas.Sql

open List

/-! ### Lines do not matter -/

section OnLine

variable (line : Nat) (t : Token) (ts : List Token)

@[simp] theorem isPunct_onLine (mark : Char) : (t.onLine line).isPunct mark = t.isPunct mark := rfl

@[simp] theorem isName_onLine : (t.onLine line).isName = t.isName := rfl

@[simp] theorem keyword?_onLine : (t.onLine line).keyword? = t.keyword? := rfl

@[simp] theorem isKeyword_onLine (words : List String) :
    (t.onLine line).isKeyword words = t.isKeyword words := rfl

@[simp] theorem lowerText_onLine : (t.onLine line).lowerText = t.lowerText := rfl

theorem addToken_onLine (es : List (List Token)) :
    addToken (t.onLine line) (es.map (·.map (·.onLine line))) =
      (addToken t es).map (·.map (·.onLine line)) := by
  cases es <;> rfl

theorem elements_onLine (depth : Nat) : elements depth (ts.map (·.onLine line)) =
    ((elements depth ts).1.map (·.map (·.onLine line)), (elements depth ts).2) := by
  induction ts generalizing depth with
  | nil => rfl
  | cons t ts ih =>
    rw [map_cons, elements, elements]
    simp only [isPunct_onLine, ih, addToken_onLine]
    split
    · split <;> rfl
    split
    · split <;> rfl
    split <;> rfl

theorem dottedName_onLine : dottedName (ts.map (·.onLine line)) = dottedName ts := by
  fun_induction dottedName ts <;> simp_all [dottedName]

theorem dataType?_onLine : dataType? (ts.map (·.onLine line)) = dataType? ts := by
  rcases ts with _ | ⟨t, _ | ⟨p, args⟩⟩
  · rfl
  · rfl
  · simp only [map_cons, dataType?, isPunct_onLine, takeWhile_map, map_map]
    rfl

theorem declaredColumn?_onLine : declaredColumn? (ts.map (·.onLine line)) = declaredColumn? ts := by
  cases ts with
  | nil => rfl
  | cons t ts =>
    have hwords : ((t :: ts).map (·.onLine line)).filterMap Token.keyword? =
        (t :: ts).filterMap Token.keyword? := by
      rw [filterMap_map]
      rfl
    rw [map_cons] at hwords ⊢
    rw [declaredColumn?, declaredColumn?, hwords, dataType?_onLine]
    rfl

theorem primaryNames_onLine : primaryNames (ts.map (·.onLine line)) = primaryNames ts := by
  cases ts with
  | nil => rfl
  | cons t ts =>
    rw [map_cons, primaryNames, primaryNames, ← map_drop, filter_map, map_map]
    rfl

theorem declaredColumns_onLine (es : List (List Token)) :
    declaredColumns (es.map (·.map (·.onLine line))) = declaredColumns es := by
  rw [declaredColumns, declaredColumns, filterMap_map, flatMap_map]
  simp only [Function.comp_def, declaredColumn?_onLine, primaryNames_onLine]

theorem any_head?_onLine {p : Token → Bool} (hp : ∀ t, p (t.onLine line) = p t) :
    (ts.map (·.onLine line)).head?.any p = ts.head?.any p := by
  cases ts <;> simp [hp]

/-- **Where its tokens stand does not matter** to what a declaration declares. -/
theorem readDeclaration_onLine (first : Nat) :
    readDeclaration first (ts.map (·.onLine line)) = readDeclaration first ts := by
  have htake : ∀ (words : List String) (us : List Token),
      (us.map (·.onLine line)).takeWhile (·.isKeyword words) =
        (us.takeWhile (·.isKeyword words)).map (·.onLine line) := by
    intro words us
    rw [takeWhile_map]
    rfl
  have hkeyword : ∀ (words : List String) (us : List Token),
      (us.map (·.onLine line)).head?.any (·.isKeyword words) = us.head?.any (·.isKeyword words) :=
    fun _ us => any_head?_onLine line us fun _ => rfl
  have hpunct : ∀ (mark : Char) (us : List Token),
      (us.map (·.onLine line)).head?.any (·.isPunct mark) = us.head?.any (·.isPunct mark) :=
    fun _ us => any_head?_onLine line us fun _ => rfl
  rw [readDeclaration, readDeclaration]
  simp only [htake, length_map, ← map_drop, hkeyword, hpunct, dottedName_onLine]
  split
  · rfl
  split
  · rfl
  split
  · rw [elements_onLine]
    simp only [declaredColumns_onLine]
  · rfl

end OnLine

/-! ### The head of a declaration -/

/-- **What stands before the elements of a declaration**: `CREATE`, perhaps `TEMPORARY` and the
like, `TABLE`, perhaps `IF NOT EXISTS`, and the name of the table, each part of it behind the first
one with the dot before it. -/
structure DeclarationHead where
  create : Token
  kinds : List Token
  table : Token
  exist : List Token
  first : Token
  more : List (Token × Token)
  isKeyword_create : create.isKeyword ["create"] = true := by decide
  isKeyword_kinds : ∀ t ∈ kinds, t.isKeyword
    ["temporary", "temp", "global", "local", "external", "or", "replace"] = true := by decide
  isKeyword_table : table.isKeyword ["table"] = true := by decide
  isKeyword_exist : ∀ t ∈ exist, t.isKeyword ["if", "not", "exists"] = true := by decide
  isPlainName_first : first.isPlainName = true := by decide
  isDotted_more : ∀ p ∈ more, p.1.isPunct '.' = true ∧ p.2.isName = true := by decide

namespace DeclarationHead

def ofName (create first : Token) (more : List (Token × Token))
    (hcreate : create.isKeyword ["create"] = true) (hfirst : first.isPlainName = true)
    (hmore : ∀ p ∈ more, p.1.isPunct '.' = true ∧ p.2.isName = true) : DeclarationHead where
  create := create
  kinds := []
  table := .ofWord "TABLE"
  exist := []
  first := first
  more := more
  isKeyword_create := hcreate
  isPlainName_first := hfirst
  isDotted_more := hmore

variable (d : DeclarationHead)

def tokens : List Token :=
  d.kinds ++ d.table :: (d.exist ++ d.first :: d.more.flatMap fun p => [p.1, p.2])

def names : List String :=
  (d.first :: d.more.map Prod.snd).map Token.lowerText

def declared (columns : List DeclaredColumn) : DeclaredTable where
  schema := d.names.dropLast.getLast?
  name := d.names.getLast (by simp [names])
  line := d.create.line
  columns := columns

end DeclarationHead

variable {ts : List Token} {opening closing : Token}

theorem dottedName_append {first : Token} {more : List (Token × Token)} (hfirst : first.isName)
    (hmore : ∀ p ∈ more, p.1.isPunct '.' ∧ p.2.isName)
    (hopen : opening.isPunct '(') (ts : List Token) :
    dottedName (first :: ((more.flatMap fun p => [p.1, p.2]) ++ opening :: ts)) =
      ((first :: more.map Prod.snd).map Token.lowerText, 1 + 2 * more.length) := by
  induction more generalizing first with
  | nil =>
    have hdot := not_isPunct_of_isPunct hopen (b := '.') (by decide)
    simp [dottedName, hfirst, hdot]
  | cons p more ih =>
    obtain ⟨⟨hdot, hname⟩, hmore⟩ := forall_mem_cons.mp hmore
    have := ih hname hmore
    simp only [flatMap_cons, cons_append, nil_append, dottedName, hfirst, hdot, this]
    simp
    omega

theorem takeWhile_append_cons {p : Token → Bool} (hts : ∀ t ∈ ts, p t) {u : Token}
    (hu : p u = false) (rest : List Token) : (ts ++ u :: rest).takeWhile p = ts := by
  rw [takeWhile_append_of_pos hts]
  simp [hu]

/-- **A declaration is read** in its head and its elements. -/
theorem DeclarationHead.readDeclaration_eq (d : DeclarationHead)
    (hopen : opening.isPunct '(') (ts : List Token) :
    readDeclaration d.create.line (d.tokens ++ opening :: ts) =
      (some (d.declared (declaredColumns (elements 0 (opening :: ts)).1)),
        d.tokens.length + (elements 0 (opening :: ts)).2) := by
  let name := d.first :: ((d.more.flatMap fun p => [p.1, p.2]) ++ opening :: ts)
  have htokens : d.tokens ++ opening :: ts = d.kinds ++ d.table :: (d.exist ++ name) := by
    simp [tokens, name]
  have htable : d.table.isKeyword
      ["temporary", "temp", "global", "local", "external", "or", "replace"] = false := by
    obtain ⟨keyword, hmem, hkeyword⟩ := isKeyword_eq_true_iff.mp d.isKeyword_table
    obtain rfl := mem_singleton.mp hmem
    simp [Token.isKeyword, hkeyword]
  obtain ⟨hname, hplain⟩ := Bool.and_eq_true_iff.mp d.isPlainName_first
  have hfirst : d.first.isKeyword ["if", "not", "exists"] = false := by
    simp [Token.isKeyword, Option.isNone_iff_eq_none.mp hplain]
  have hdotted : dottedName name = (d.names, 1 + 2 * d.more.length) :=
    dottedName_append hname d.isDotted_more hopen ts
  have hlength : (d.more.flatMap fun p => [p.1, p.2]).length = 2 * d.more.length := by
    simp [length_flatMap, Nat.mul_comm]
  have hafter : name.drop (1 + 2 * d.more.length) = opening :: ts := by
    rw [Nat.add_comm, drop_succ_cons, ← hlength, drop_left]
  have hlast : d.names.getLast? = some (d.names.getLast (by simp [names])) :=
    getLast?_eq_some_getLast _
  rw [readDeclaration, htokens, takeWhile_append_cons d.isKeyword_kinds htable]
  dsimp only
  rw [drop_left, if_neg (by simp [d.isKeyword_table]), drop_one, tail_cons,
    takeWhile_append_cons d.isKeyword_exist hfirst, drop_left, hdotted]
  dsimp only
  rw [hlast, hafter]
  dsimp only
  rw [if_pos (by simpa using hopen)]
  simp only [declared, tokens, length_append, length_cons, hlength]
  refine Prod.ext rfl ?_
  dsimp only
  omega

/-! ### Elements -/

/-- **An element of a declaration**: its parentheses are closed, and there is no comma outside. -/
def IsElement (ts : List Token) : Prop :=
  Closes (fun t => ¬t.isPunct ',' = true) 0 ts

theorem isName_of_isKeyword {t : Token} {words : List String} (h : t.isKeyword words) :
    t.isName := by
  obtain ⟨keyword, -, hkeyword⟩ := isKeyword_eq_true_iff.mp h
  rw [Token.keyword?] at hkeyword
  split at hkeyword
  · next hword => simp [Token.isName, hword.1]
  · cases hkeyword

theorem DeclarationHead.closes_tokens (d : DeclarationHead) : Closes (fun _ => True) 0 d.tokens := by
  refine .of_forall fun t ht => ?_
  have hcases : t.isName ∨ t.isPunct '.' := by
    simp only [tokens, mem_append, mem_cons, mem_flatMap, not_mem_nil,
      or_false] at ht
    rcases ht with ht | rfl | ht | rfl | ⟨p, hp, rfl | rfl⟩
    · exact .inl (isName_of_isKeyword (d.isKeyword_kinds t ht))
    · exact .inl (isName_of_isKeyword d.isKeyword_table)
    · exact .inl (isName_of_isKeyword (d.isKeyword_exist t ht))
    · exact .inl (Bool.and_eq_true_iff.mp d.isPlainName_first).1
    · exact .inr (d.isDotted_more p hp).1
    · exact .inl (d.isDotted_more p hp).2
  rcases hcases with hname | hdot
  · exact ⟨not_isPunct_of_isName hname _, not_isPunct_of_isName hname _, trivial⟩
  · exact ⟨not_isPunct_of_isPunct hdot (by decide), not_isPunct_of_isPunct hdot (by decide), trivial⟩

theorem IsElement.cons {t : Token} (ht : t.isName) {ts : List Token} (h : IsElement ts) :
    IsElement (t :: ts) :=
  .other (not_isPunct_of_isName ht '(') (not_isPunct_of_isName ht ')')
    (fun _ => not_isPunct_of_isName ht ',') h

theorem IsElement.parenthesized (hopen : opening.isPunct '(')
    (hclose : closing.isPunct ')') {inside : List Token}
    (hinside : ∀ t ∈ inside, ¬t.isPunct '(' ∧ ¬t.isPunct ')') (h : IsElement ts) :
    IsElement (opening :: (inside ++ closing :: ts)) := by
  refine .opening hopen ?_
  induction inside with
  | nil => exact .closing hclose h
  | cons t inside ih =>
    obtain ⟨ht, hinside⟩ := forall_mem_cons.mp hinside
    exact .other ht.1 ht.2 (by simp) (ih hinside)

def addTokens (ts : List Token) (es : List (List Token)) : List (List Token) :=
  ts.foldr addToken es

@[simp] theorem addTokens_cons (ts e : List Token) (es : List (List Token)) :
    addTokens ts (e :: es) = (ts ++ e) :: es := by
  induction ts with
  | nil => rfl
  | cons t ts ih =>
    rw [addTokens, foldr_cons] at *
    rw [ih]
    rfl

theorem Closes.elements_append {depth : Nat} (h : Closes (fun t => ¬t.isPunct ',' = true) depth ts)
    (rest : List Token) : elements (depth + 1) (ts ++ rest) =
      (addTokens ts (elements 1 rest).1, ts.length + (elements 1 rest).2) := by
  induction h with
  | nil => simp [addTokens]
  | @opening depth t ts ht _ ih =>
    rw [cons_append, elements, if_pos ht, ih]
    simp [addTokens]
    omega
  | @closing depth t ts ht _ ih =>
    rw [cons_append, elements, if_neg (not_isPunct_of_isPunct ht (by decide)), if_pos ht,
      if_neg (by omega), Nat.add_sub_cancel, ih]
    simp [addTokens]
    omega
  | @other depth t ts hopen hclose hcomma _ ih =>
    have hinside : ¬(t.isPunct ',' && depth + 1 == 1) := by
      simp only [Bool.and_eq_true, beq_iff_eq, not_and]
      intro hpunct hdepth
      exact hcomma (by omega) hpunct
    rw [cons_append, elements, if_neg hopen, if_neg hclose, if_neg hinside, ih]
    simp [addTokens]
    omega

theorem elements_comma {comma : Token} (h : comma.isPunct ',') (ts : List Token) :
    elements 1 (comma :: ts) = ([] :: (elements 1 ts).1, (elements 1 ts).2 + 1) := by
  rw [elements, if_neg (not_isPunct_of_isPunct h (by decide)),
    if_neg (not_isPunct_of_isPunct h (by decide)), if_pos (by simp [h])]

theorem elements_close (h : closing.isPunct ')') (ts : List Token) :
    elements 1 (closing :: ts) = ([[]], 1) := by
  rw [elements, if_neg (not_isPunct_of_isPunct h (by decide)), if_pos h, if_pos le_rfl]

theorem elements_before {before : List (List Token × Token)}
    (h : ∀ p ∈ before, IsElement p.1 ∧ p.2.isPunct ',') (ts : List Token) :
    elements 1 ((before.flatMap fun p => p.1 ++ [p.2]) ++ ts) =
      (before.map Prod.fst ++ (elements 1 ts).1,
        (before.flatMap fun p => p.1 ++ [p.2]).length + (elements 1 ts).2) := by
  induction before with
  | nil => simp
  | cons p before ih =>
    obtain ⟨⟨helement, hcomma⟩, hbefore⟩ := forall_mem_cons.mp h
    have hrest := ih hbefore
    rw [flatMap_cons, append_assoc, append_assoc, helement.elements_append,
      singleton_append, elements_comma hcomma, hrest]
    simp
    omega

theorem elements_after {e : List Token} (he : IsElement e) {after : List (Token × List Token)}
    (h : ∀ p ∈ after, p.1.isPunct ',' ∧ IsElement p.2)
    (hclosing : closing.isPunct ')') (rest : List Token) :
    elements 1 (e ++ ((after.flatMap fun p => p.1 :: p.2) ++ closing :: rest)) =
      (e :: after.map Prod.snd, e.length + (after.flatMap fun p => p.1 :: p.2).length + 1) := by
  induction after generalizing e with
  | nil =>
    rw [he.elements_append, flatMap_nil, nil_append, elements_close hclosing]
    simp
  | cons p after ih =>
    obtain ⟨⟨hcomma, helement⟩, hafter⟩ := forall_mem_cons.mp h
    rw [he.elements_append, flatMap_cons, append_assoc, cons_append,
      elements_comma hcomma, ih helement hafter]
    simp
    omega

theorem elements_open (h : opening.isPunct '(') (ts : List Token) :
    elements 0 (opening :: ts) = ((elements 1 ts).1, (elements 1 ts).2 + 1) := by
  rw [elements, if_pos h]
  rfl

/-! ### Declarations one behind the other -/

theorem declarations_eq_drop (skip : Nat) (ts : List Token) :
    declarations skip ts = declarations 0 (ts.drop skip) := by
  induction ts generalizing skip with
  | nil => simp [declarations]
  | cons t ts ih =>
    cases skip with
    | zero => rfl
    | succ skip => rw [declarations, drop_succ_cons, ih]

theorem declarations_create {create : Token} (h : create.isKeyword ["create"])
    {table : DeclaredTable} {n : Nat} (hread : readDeclaration create.line ts = (some table, n)) :
    declarations 0 (create :: ts) = table :: declarations 0 (ts.drop n) := by
  rw [declarations, if_pos h, hread]
  exact congrArg (table :: ·) (declarations_eq_drop n ts)

/-- **A declaration is read up to its end**, wherever its tokens stand. -/
theorem DeclarationHead.declarations_append (d : DeclarationHead)
    (hopening : opening.isPunct '(') (hclosing : closing.isPunct ')')
    {before : List (List Token × Token)} (hbefore : ∀ p ∈ before, IsElement p.1 ∧ p.2.isPunct ',')
    {e : List Token} (he : IsElement e) {after : List (Token × List Token)}
    (hafter : ∀ p ∈ after, p.1.isPunct ',' ∧ IsElement p.2)
    (hts : ts.map (·.onLine 1) = (d.tokens ++ opening :: ((before.flatMap fun p => p.1 ++ [p.2]) ++
      (e ++ ((after.flatMap fun p => p.1 :: p.2) ++ [closing])))).map (·.onLine 1))
    (rest : List Token) : declarations 0 (d.create :: (ts ++ rest)) =
      d.declared (declaredColumns (before.map Prod.fst ++ e :: after.map Prod.snd)) ::
        declarations 0 rest := by
  let list := (before.flatMap fun p => p.1 ++ [p.2]) ++
    (e ++ ((after.flatMap fun p => p.1 :: p.2) ++ [closing]))
  have helements : elements 0 (opening :: (list ++ rest)) =
      (before.map Prod.fst ++ e :: after.map Prod.snd, (opening :: list).length) := by
    simp only [list, append_assoc, cons_append, nil_append]
    rw [elements_open hopening, elements_before hbefore, elements_after he hafter hclosing]
    refine Prod.ext rfl ?_
    simp only [length_append, length_cons, length_nil]
    omega
  have hline : (ts ++ rest).map (·.onLine 1) =
      (d.tokens ++ opening :: (list ++ rest)).map (·.onLine 1) := by
    rw [map_append, hts, ← map_append, append_assoc]
    rfl
  have hlength : ts.length = d.tokens.length + (opening :: list).length := by
    rw [← length_append, ← length_map (f := (·.onLine 1)), hts, length_map]
  have hread : readDeclaration d.create.line (ts ++ rest) =
      (some (d.declared (declaredColumns (before.map Prod.fst ++ e :: after.map Prod.snd))),
        ts.length) := by
    rw [← readDeclaration_onLine 1, hline, readDeclaration_onLine, d.readDeclaration_eq hopening,
      helements, hlength]
  rw [declarations_create d.isKeyword_create hread, drop_left]

theorem declarations_of_forall (h : ∀ t ∈ ts, t.isKeyword ["create"] = false) :
    declarations 0 ts = [] := by
  induction ts with
  | nil => rfl
  | cons t ts ih =>
    obtain ⟨ht, hts⟩ := forall_mem_cons.mp h
    rw [declarations, if_neg (by simp [ht]), ih hts]

end AppAtlas.Sql
