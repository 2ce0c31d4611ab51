import AppAtlas.Proofs.Sql.CommonTables
import AppAtlas.Proofs.Sql.Junctions
import AppAtlas.Proofs.Sql.Parentheses
import AppAtlas.Proofs.Sql.Writes

/-!
# The query of an `INSERT`

An `INSERT` writes to the table behind `INTO` and reads the tables of its query.  What stands in
parentheses behind the table is taken for the list of its columns, though, whatever it is.  So a
query in parentheses is passed over as a whole, and the tables that it reads are not reported.

* `references_insert_query`, `references_insert_parenthesized`: the table references of an `INSERT`.
* `tables_insertQuery`, `tables_insertParenthesized`: the tables that are reported.
* `insert_query_ignored_in_parentheses`: what the parentheses take away.
-/

namespace AppAtlas.Sql

open List

variable {ts : List Token} {t : Token} {name : String}

/-! ### Table references of an `INSERT` -/

/-- The use of the table that an `INSERT` writes to. -/
def insertedTable (t : Token) : TableUse :=
  ⟨t.lowerText, none, .write, t.dynamic, t.line⟩

/-- Nothing more of a table reference follows: neither a part of the name nor an alias. -/
def StopsReference (next : Option Token) : Prop :=
  ∀ t ∈ next, t.isPunct '.' = false ∧ t.isKeyword ["as"] = false ∧ t.isPlainName = false

theorem dottedParts_of_stops {accepts : Token → Bool} (h : StopsReference ts.head?) :
    dottedParts accepts ts = [] := by
  rcases ts with _ | ⟨dot, _ | ⟨u, ts⟩⟩
  · rfl
  · rfl
  · simp [dottedParts, (h dot rfl).1]

theorem aliasLength_of_stops (h : StopsReference ts.head?) : aliasLength ts = 0 := by
  rw [aliasLength, readAlias]
  cases ts with
  | nil => rfl
  | cons t ts =>
    obtain ⟨-, has, hname⟩ := h t rfl
    simp [has, hname]

section

variable (hkeyword : t.keyword? = none) (hsort : t.sort = .word)

include hkeyword hsort

theorem tableMove_write (h : StopsReference ts.head?) (s : Stand) :
    tableMove .write (t :: ts) s = ⟨s, 1, some (insertedTable t)⟩ := by
  have hlead : tableLead (t :: ts) = 0 := by simp [tableLead, Token.isKeyword, hkeyword]
  have hdrop : (t :: ts).drop (tableLead (t :: ts)) = t :: ts := by rw [hlead]; rfl
  have hname : t.isNamePart = true := by simp [Token.isNamePart, Token.isName, hsort]
  have hlength : tableLength .write (t :: ts) = 1 := by
    rw [tableLength, readTable_of_drop_eq_cons hdrop, if_neg (by simp [hkeyword, hname]),
      dottedParts_of_stops h, hlead]
    dsimp only
    rw [if_neg (by simp), (makes_readAlias [] _ _ _).taken]
    exact congrArg (1 + ·) (aliasLength_of_stops h)
  rw [tableMove, hlength, reference?, hdrop]
  dsimp only
  rw [dottedParts_of_stops h, if_neg (by simp [hkeyword, hname]), if_neg (by simp), lastPart,
    getLast_singleton, if_neg (by simp [hsort])]
  rfl

theorem references_insert (h : StopsReference ts.head?) :
    references (.ofWord "INSERT" :: .ofWord "INTO" :: t :: ts) = insertedTable t ::
      referencesFrom (if ts.head?.any (·.isPunct '(') then (namesInside 0 ts).2 else 0)
        { keyword := "into" } ts := by
  have hinsert : (Token.ofWord "INSERT").keyword? = some "insert" := by decide
  have hinto : (Token.ofWord "INTO").keyword? = some "into" := by decide
  have hmove : keywordMove "into" (t :: ts) { keyword := "insert" } =
      ⟨{ keyword := "insert" },
        1 + (if ts.head?.any (·.isPunct '(') then (namesInside 0 ts).2 else 0),
        some (insertedTable t)⟩ := by
    rw [keywordMove, tableMove_write hkeyword hsort h]
    by_cases hopen : ts.head?.any (·.isPunct '(') = true <;> simp [hopen]
  rw [references, referencesFrom, stepMove_of_keyword hinsert]
  change referencesFrom 0 { keyword := "insert" } (.ofWord "INTO" :: t :: ts) = _
  rw [referencesFrom, stepMove_of_keyword hinto, hmove]
  dsimp only
  rw [Nat.add_comm 1, referencesFrom]
  rfl

/-- **An `INSERT` with a query** refers to its table and to what the query refers to. -/
theorem references_insert_query {qs : List Token} (h : qs.head?.any (·.isKeyword ["select"])) :
    references (.ofWord "INSERT" :: .ofWord "INTO" :: t :: qs) =
      insertedTable t :: references qs := by
  cases qs with
  | nil => cases h
  | cons select qs =>
    obtain ⟨keyword, hmem, hselect⟩ := isKeyword_eq_true_iff.mp h
    obtain rfl := mem_singleton.mp hmem
    have hpunct : ∀ mark, select.isPunct mark = false := by
      intro mark
      rw [← Bool.not_eq_true]
      intro hmark
      rw [keyword?_eq_none_of_isPunct hmark] at hselect
      cases hselect
    have hstops : StopsReference (select :: qs).head? := by
      rintro _ ⟨⟩
      simp [hpunct, Token.isKeyword, Token.isPlainName, hselect]
    rw [references_insert hkeyword hsort hstops, if_neg (by simp [hpunct]), references,
      referencesFrom, referencesFrom, stepMove_of_keyword hselect, stepMove_of_keyword hselect]
    rfl

/-- **An `INSERT` with a query in parentheses** refers to its table only. -/
theorem references_insert_parenthesized {opening : Token} (hopen : opening.isPunct '(')
    {p : Token → Prop} {qs : List Token} (h : Closes p 0 qs) {close : List Token}
    (hclose : close = [] ∨ ∃ t, t.isPunct ')' ∧ close = [t]) :
    references (.ofWord "INSERT" :: .ofWord "INTO" :: t :: opening :: (qs ++ close)) =
      [insertedTable t] := by
  have hstops : StopsReference (opening :: (qs ++ close)).head? := by
    rintro _ ⟨⟩
    have hkeyword := keyword?_eq_none_of_isPunct hopen
    have hname : opening.isName = false := by
      rw [Token.isPunct, beq_iff_eq] at hopen
      simp [Token.isName, hopen]
    simp [not_isPunct_of_isPunct hopen, Token.isKeyword, Token.isPlainName, hkeyword, hname]
  have hlength : (namesInside 0 (opening :: (qs ++ close))).2 =
      (opening :: (qs ++ close)).length := by
    have hend : (namesInside 1 close).2 = close.length := by
      rcases hclose with rfl | ⟨t, ht, rfl⟩
      · rfl
      · rw [namesInside, if_neg (not_isPunct_of_isPunct ht (by decide)), if_pos ht, if_pos le_rfl]
        rfl
    rw [namesInside, if_pos hopen]
    simp only [h.length_namesInside close, hend, length_cons, length_append]
  rw [references_insert hkeyword hsort hstops, if_pos (by simpa using hopen), hlength,
    referencesFrom_eq_drop, drop_length, referencesFrom]

end

/-! ### Texts -/

theorem tokens_insert (w : PlainWord) {rest : List Char} (h : Ends rest.head?) :
    (scan 0 1 ("INSERT INTO ".toList ++ (w.text.toList ++ rest))).tokens =
      .ofWord "INSERT" :: .ofWord "INTO" :: w.token 1 :: (scan 0 1 rest).tokens := by
  have hword : (scan 0 1 (w.text.toList ++ rest)).tokens = w.token 1 :: (scan 0 1 rest).tokens := by
    rw [((w.spelled.of_ends h).scan_append 1).1]
    simp [Piece.token?, Piece.lines, Word.token]
  calc (scan 0 1 ("INSERT INTO ".toList ++ (w.text.toList ++ rest))).tokens
    _ = .ofWord "INSERT" :: .ofWord "INTO" :: (scan 0 1 (w.text.toList ++ rest)).tokens := rfl
    _ = _ := by rw [hword]

theorem exists_tokens_concat_close {text : List Char} {line : Nat}
    (hclosed : (scan 0 line text).broken = none) : ∃ close,
      (scan 0 line (text ++ [')'])).tokens = (scan 0 line text).tokens ++ close ∧
      (close = [] ∨ ∃ t, t.isPunct ')' ∧ close = [t]) := by
  rcases tokens_concat text (show partsTokens ')' by decide) (.inr hclosed) with
    htokens | ⟨line', htokens⟩
  · exact ⟨[], by rw [htokens, append_nil], .inl rfl⟩
  · exact ⟨_, htokens, .inr ⟨_, rfl, rfl⟩⟩

theorem introduces_cons {p : Token} (h : ¬(p.isPunct ',' ∨ p.isKeyword ["with", "recursive"])) :
    Introduces name (p :: ts) ↔ Introduces name ts := by
  cases ts with
  | nil =>
    exact iff_of_false (not_introduces_of_length (by simp)) (not_introduces_of_length (by simp))
  | cons t ts =>
    rw [introduces_cons_cons_iff]
    refine or_iff_right ?_
    rintro ⟨_, _, _, _, hintroduction⟩
    exact h hintroduction.leads

theorem introduces_concat (h : ¬t.isPunct '(') :
    Introduces name (ts ++ [t]) ↔ Introduces name ts := by
  constructor
  · rintro ⟨p, u, as, opening, hintroduction, hinfix⟩
    rcases infix_concat_iff.mp hinfix with hsuffix | hinfix
    · obtain ⟨before, hbefore⟩ := hsuffix
      obtain rfl : opening = t := by simpa using congrArg getLast? hbefore
      exact absurd hintroduction.opens h
    · exact ⟨p, u, as, opening, hintroduction, hinfix⟩
  · rintro ⟨p, u, as, opening, hintroduction, hinfix⟩
    exact ⟨p, u, as, opening, hintroduction, hinfix.trans (prefix_append _ _).isInfix⟩

def Usage.uses (u : Usage) : List (String × Access) :=
  u.tables.map fun t => (t.name, t.access)

theorem tables_analyze (text : String) : (analyze text).tables =
    distinctOn (fun t => (t.name, t.access))
      (noted (commonTables none (tokenize text).tokens) (references (tokenize text).tokens)) := by
  rw [← tables_walkTokens]
  rfl

theorem noted_congr {a b : List String} (h : ∀ name, name ∈ a ↔ name ∈ b)
    (us : List TableUse) : noted a us = noted b us := by
  refine filter_congr fun u _ => ?_
  simp [h u.name]

theorem distinctOn_noted_cons (common : List String) (u : TableUse) (us : List TableUse) :
    distinctOn (fun t => (t.name, t.access)) (noted common (u :: us)) = noted common [u] ++
      ((distinctOn (fun t => (t.name, t.access)) (noted common us)).filter fun t =>
        (t.name, t.access) ∉ (noted common [u]).map fun t => (t.name, t.access)) := by
  by_cases h : u.name ∈ common <;> simp [noted, distinctOn, h]

def insertQuery (w : PlainWord) (q : String) : String :=
  "INSERT INTO " ++ w.text ++ " " ++ q

def insertParenthesized (w : PlainWord) (q : String) : String :=
  "INSERT INTO " ++ w.text ++ " (" ++ q ++ ")"

/-- **An `INSERT` introduces no common table** before its query. -/
theorem introduces_insert (w : PlainWord) (ts : List Token) :
    Introduces name (.ofWord "INSERT" :: .ofWord "INTO" :: w.token 1 :: ts) ↔
      Introduces name ts := by
  have htable : ¬((w.token 1).isPunct ',' ∨
      (w.token 1).isKeyword ["with", "recursive"]) := by
    rw [Token.isKeyword, w.keyword?_token]
    simp [Token.isPunct, Word.token]
  rw [introduces_cons (by decide), introduces_cons (by decide), introduces_cons htable]

theorem tables_insertQuery (w : PlainWord) {q : String}
    (hselect : (tokenize q).tokens.head?.any (·.isKeyword ["select"])) :
    (analyze (insertQuery w q)).tables =
      distinctOn (fun t => (t.name, t.access)) (noted (commonTables none (tokenize q).tokens)
        (insertedTable (w.token 1) :: references (tokenize q).tokens)) := by
  have htokens : (tokenize (insertQuery w q)).tokens =
      .ofWord "INSERT" :: .ofWord "INTO" :: w.token 1 :: (tokenize q).tokens := by
    have hspace : Ends (" ".toList ++ q.toList).head? := ends_some.mpr (by decide)
    rw [insertQuery, tokenize, String.toList_append, String.toList_append, String.toList_append,
      append_assoc, append_assoc, tokens_insert w hspace]
    rfl
  rw [tables_analyze, htokens, references_insert_query w.keyword?_token rfl hselect]
  congr 1
  refine noted_congr (fun name => ?_) _
  rw [mem_commonTables_iff, mem_commonTables_iff]
  exact introduces_insert w _

theorem tables_insertParenthesized (w : PlainWord) {q : String}
    (hproblems : (tokenize q).problems = []) : (analyze (insertParenthesized w q)).tables =
      noted (commonTables none (tokenize q).tokens) [insertedTable (w.token 1)] := by
  obtain ⟨hbroken, hfault⟩ : (tokenize q).broken = none ∧
      parenthesisFault 0 1 (tokenize q).tokens = none := by
    simpa [Tokens.problems] using hproblems
  obtain ⟨close, hconcat, hclose⟩ := exists_tokens_concat_close hbroken
  have htokens : (tokenize (insertParenthesized w q)).tokens =
      .ofWord "INSERT" :: .ofWord "INTO" :: w.token 1 :: .ofMark '(' ::
        ((tokenize q).tokens ++ close) := by
    have hspace : Ends (" (".toList ++ (q.toList ++ ")".toList)).head? :=
      ends_some.mpr (by decide)
    rw [insertParenthesized, tokenize, String.toList_append, String.toList_append,
      String.toList_append, String.toList_append, append_assoc, append_assoc,
      append_assoc, tokens_insert w hspace, tokenize, ← hconcat]
    rfl
  have hcommon : ∀ name, name ∈ commonTables none (tokenize
      (insertParenthesized w q)).tokens ↔ name ∈ commonTables none (tokenize q).tokens := by
    intro name
    rw [htokens, mem_commonTables_iff, mem_commonTables_iff, Option.toList_none, nil_append,
      nil_append, introduces_insert, introduces_cons (by decide)]
    rcases hclose with rfl | ⟨t, ht, rfl⟩
    · rw [append_nil]
    · exact introduces_concat (not_isPunct_of_isPunct ht (by decide))
  rw [tables_analyze, noted_congr hcommon, htokens, references_insert_parenthesized
    w.keyword?_token rfl rfl (closes_of_parenthesisFault hfault) hclose,
    distinctOn_noted_cons]
  exact append_nil _

/-- **The query of an `INSERT` is not looked at in parentheses.**  Of the tables that the statement
uses, only the one it writes to is reported then, while without parentheses those of the query are
reported as well.  So the parentheses change nothing exactly if the query uses no other table. -/
theorem insert_query_ignored_in_parentheses (w : PlainWord) {q : String}
    (hproblems : (tokenize q).problems = [])
    (hselect : (tokenize q).tokens.head?.any (·.isKeyword ["select"]) = true) :
    (analyze (insertParenthesized w q)).tables =
      noted (commonTables none (tokenize q).tokens) [insertedTable (w.token 1)] ∧
    (analyze (insertQuery w q)).tables = (analyze (insertParenthesized w q)).tables ++
      ((analyze q).tables.filter fun t =>
        (t.name, t.access) ∉ (analyze (insertParenthesized w q)).uses) ∧
    ((analyze (insertParenthesized w q)).uses = (analyze (insertQuery w q)).uses ↔
      ∀ u ∈ (analyze q).uses, u ∈ (analyze (insertParenthesized w q)).uses) := by
  have hown := tables_insertParenthesized w hproblems
  have hall : (analyze (insertQuery w q)).tables = (analyze (insertParenthesized w q)).tables ++
      ((analyze q).tables.filter fun t =>
        (t.name, t.access) ∉ (analyze (insertParenthesized w q)).uses) := by
    rw [tables_insertQuery w hselect, Usage.uses, hown, tables_analyze q]
    exact distinctOn_noted_cons _ _ _
  refine ⟨hown, hall, ?_⟩
  have huses : (analyze (insertQuery w q)).uses = (analyze (insertParenthesized w q)).uses ++
      (((analyze q).tables.filter fun t =>
        (t.name, t.access) ∉ (analyze (insertParenthesized w q)).uses).map
          fun t => (t.name, t.access)) := by
    rw [Usage.uses, hall, List.map_append]
    rfl
  rw [huses, List.self_eq_append_right, List.map_eq_nil_iff, List.filter_eq_nil_iff]
  simp [Usage.uses]

/-- A query that ends in a comment takes the parenthesis behind it in, too. -/
theorem commented_query_ignored_in_parentheses :
    (tokenize "SELECT 1 FROM b, t -- all").problems = [] ∧
      (tokenize "SELECT 1 FROM b, t -- all").tokens.head?.any (·.isKeyword ["select"]) = true ∧
      (analyze (insertQuery { text := "t" } "SELECT 1 FROM b, t -- all")).tables =
        (analyze (insertParenthesized { text := "t" } "SELECT 1 FROM b, t -- all")).tables ++
          [⟨"b", none, .read, false, 1⟩, ⟨"t", none, .read, false, 1⟩] := by
  have hproblems : (tokenize "SELECT 1 FROM b, t -- all").problems = [] := by decide +kernel
  have hselect : (tokenize "SELECT 1 FROM b, t -- all").tokens.head?.any
      (·.isKeyword ["select"]) = true := by decide +kernel
  have htables := insert_query_ignored_in_parentheses { text := "t" } hproblems hselect
  refine ⟨hproblems, hselect, htables.2.1.trans (congrArg _ ?_)⟩
  decide +kernel

/-- **Parentheses around the query of an `INSERT` hide a table.** -/
theorem parentheses_hide_table :
    (tokenize "SELECT 1 FROM b").problems = [] ∧
      (analyze (insertQuery { text := "t" } "SELECT 1 FROM b")).uses =
        [("t", .write), ("b", .read)] ∧
      (analyze (insertParenthesized { text := "t" } "SELECT 1 FROM b")).uses = [("t", .write)] := by
  decide +kernel

end AppAtlas.Sql
