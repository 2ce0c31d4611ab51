import AppAtlas.Proofs.Sql.References

/-!
# Common table expressions

The names of common table expressions are collected before the walk, from any place where a name
behind a comma, `WITH` or `RECURSIVE` is followed by `AS (`.  References to these names are left out
wherever they stand.  A common table with a list of its columns does not look like this, since the
list stands between its name and `AS`, so its name is taken for that of a table.

* `WithStatement.introduces`: a common table without a list of columns is introduced.
* `common_table_reported_iff`: which common tables are taken for tables.
-/

namespace AppAtlas.Sql

open List

variable {name : String} {ts : List Token}

/-! ### Names that are introduced -/

/-- Four tokens, the second of which is introduced as a common table. -/
structure Introduction (name : String) (previous t as opening : Token) : Prop where
  leads : previous.isPunct ',' = true ∨ previous.isKeyword ["with", "recursive"] = true
  isPlainName : t.isPlainName = true
  lowerText_eq : t.lowerText = name
  isKeyword_as : as.isKeyword ["as"] = true
  opens : opening.isPunct '(' = true

/-- **A name is introduced** somewhere among some tokens. -/
def Introduces (name : String) (ts : List Token) : Prop :=
  ∃ previous t as opening, Introduction name previous t as opening ∧
    [previous, t, as, opening] <:+: ts

theorem introduces_cons_cons_iff {p t : Token} : Introduces name (p :: t :: ts) ↔
      (∃ as opening after, ts = as :: opening :: after ∧ Introduction name p t as opening) ∨
        Introduces name (t :: ts) := by
  constructor
  · rintro ⟨p', t', as, opening, h, hinfix⟩
    rcases infix_cons_iff.mp hinfix with ⟨after, hafter⟩ | hinfix
    · cases hafter
      exact .inl ⟨as, opening, after, rfl, h⟩
    · exact .inr ⟨p', t', as, opening, h, hinfix⟩
  · rintro (⟨as, opening, after, rfl, h⟩ | ⟨p', t', as, opening, h, hinfix⟩)
    · exact ⟨p, t, as, opening, h, (prefix_append _ after).isInfix⟩
    · exact ⟨p', t', as, opening, h, infix_cons hinfix⟩

theorem not_introduces_of_length (h : ts.length < 4) : ¬Introduces name ts := by
  rintro ⟨p, t, as, opening, -, hinfix⟩
  have hle := hinfix.length_le
  simp only [length_cons, length_nil] at hle
  omega

theorem mem_commonTables_cons_iff {previous : Option Token} {t : Token}
    : name ∈ commonTables previous (t :: ts) ↔
      (∃ p ∈ previous, ∃ as opening after, ts = as :: opening :: after ∧
        Introduction name p t as opening) ∨ name ∈ commonTables (some t) ts := by
  rcases ts with _ | ⟨as, _ | ⟨opening, after⟩⟩
  · simp [commonTables]
  · simp [commonTables]
  · rw [commonTables]
    split
    · next h =>
      simp only [Bool.and_eq_true, Option.any_eq_true, Bool.or_eq_true] at h
      obtain ⟨⟨⟨hname, has⟩, hopens⟩, p, hp, hleads⟩ := h
      rw [mem_cons]
      constructor
      · rintro (rfl | hrest)
        · exact .inl ⟨p, hp, as, opening, after, rfl, hleads, hname, rfl, has, hopens⟩
        · exact .inr hrest
      · rintro (⟨_, _, _, _, _, _, hintroduction⟩ | hrest)
        · exact .inl hintroduction.lowerText_eq.symm
        · exact .inr hrest
    · next h =>
      refine (or_iff_right ?_).symm
      rintro ⟨p, hp, _, _, _, hts, hleads, hname, -, has, hopens⟩
      cases hts
      apply h
      simp only [Bool.and_eq_true, Option.any_eq_true, Bool.or_eq_true]
      exact ⟨⟨⟨hname, has⟩, hopens⟩, p, hp, hleads⟩

/-- **The names collected** are those introduced, the token before the list being looked at too. -/
theorem mem_commonTables_iff {previous : Option Token} :
    name ∈ commonTables previous ts ↔ Introduces name (previous.toList ++ ts) := by
  induction ts generalizing previous with
  | nil =>
    have hshort : previous.toList.length < 4 := by cases previous <;> simp
    simpa [commonTables] using not_introduces_of_length hshort
  | cons t ts ih =>
    have hrest : name ∈ commonTables (some t) ts ↔ Introduces name (t :: ts) := ih
    rw [mem_commonTables_cons_iff, hrest]
    cases previous with
    | none => simp
    | some p =>
      have hcons : Introduces name (p :: t :: ts) ↔ _ := introduces_cons_cons_iff
      rw [Option.toList_some, singleton_append, hcons]
      simp

/-- **The names reported** are those that are referred to and nowhere introduced. -/
theorem exists_mem_tables_analyze_iff (text name : String) :
    (∃ u ∈ (analyze text).tables, u.name = name) ↔
      (∃ u ∈ references (tokenize text).tokens, u.name = name) ∧
        ¬Introduces name (tokenize text).tokens := by
  have hcommon : name ∈ commonTables none (tokenize text).tokens ↔
      Introduces name (tokenize text).tokens := mem_commonTables_iff
  rw [← hcommon]
  constructor
  · rintro ⟨u, hu, rfl⟩
    obtain ⟨hmet, hname⟩ := mem_tables_analyze hu
    exact ⟨⟨u, hmet, rfl⟩, hname⟩
  · rintro ⟨⟨u, hmet, rfl⟩, hname⟩
    have hu : u ∈ (walkTokens (tokenize text).tokens).tables := by
      rw [tables_walkTokens, noted, mem_filter]
      exact ⟨hmet, by simpa using hname⟩
    obtain ⟨v, hv, hkey⟩ := exists_mem_distinctOn (fun t => (t.name, t.access)) hu
    exact ⟨v, hv, congrArg Prod.fst hkey⟩

/-! ### Statements with common tables -/

/-- Whether some tokens start and end with a parenthesis. -/
def parenthesized (ts : List Token) : Bool :=
  ts.head?.any (·.isPunct '(') && ts.tail.getLast?.any (·.isPunct ')')

/-- **A common table expression**: a name, perhaps a list of columns, `AS` and a query. -/
structure CommonTable where
  name : Token
  /-- The list of columns with its parentheses, empty where there is none. -/
  columns : List Token
  as : Token
  query : List Token
  isPlainName_name : name.isPlainName = true := by decide
  parenthesized_columns : columns = [] ∨ parenthesized columns = true := by decide
  isKeyword_as : as.isKeyword ["as"] = true := by decide
  parenthesized_query : parenthesized query = true := by decide

def CommonTable.tokens (c : CommonTable) : List Token :=
  c.name :: (c.columns ++ c.as :: c.query)

/-- **A statement that starts with common table expressions**, those behind the first one each with
the comma before it. -/
structure WithStatement where
  start : Token
  recursive : Option Token
  first : CommonTable
  more : List (Token × CommonTable)
  body : List Token
  isKeyword_start : start.isKeyword ["with"] = true := by decide
  isKeyword_recursive : ∀ t ∈ recursive, t.isKeyword ["recursive"] = true := by decide
  isPunct_comma : ∀ p ∈ more, p.1.isPunct ',' = true := by decide

namespace WithStatement

variable (s : WithStatement)

def commonTables : List CommonTable :=
  s.first :: s.more.map Prod.snd

def tokens : List Token :=
  s.start :: (s.recursive.toList ++ s.first.tokens ++
    (s.more.flatMap fun p => p.1 :: p.2.tokens) ++ s.body)

end WithStatement

theorem CommonTable.introduces {c : CommonTable} (h : c.columns = []) {previous : Token}
    (hleads : previous.isPunct ',' ∨ previous.isKeyword ["with", "recursive"])
    {ts : List Token} (hts : previous :: c.tokens <:+: ts) : Introduces c.name.lowerText ts := by
  have hparenthesized := c.parenthesized_query
  cases hquery : c.query with
  | nil =>
    rw [hquery] at hparenthesized
    cases hparenthesized
  | cons opening inside =>
    rw [hquery, parenthesized, Bool.and_eq_true] at hparenthesized
    refine ⟨previous, c.name, c.as, opening,
      ⟨hleads, c.isPlainName_name, rfl, c.isKeyword_as, hparenthesized.1⟩, ?_⟩
    have htokens : previous :: c.tokens = [previous, c.name, c.as, opening] ++ inside := by
      rw [CommonTable.tokens, h, hquery]
      rfl
    rw [htokens] at hts
    exact (prefix_append _ _).isInfix.trans hts

namespace WithStatement

variable {s : WithStatement} {c : CommonTable}

/-- **Each common table without a list of columns is introduced.** -/
theorem introduces (hc : c ∈ s.commonTables) (h : c.columns = []) :
    Introduces c.name.lowerText s.tokens := by
  rcases mem_cons.mp hc with rfl | hmore
  · cases hrecursive : s.recursive with
    | none =>
      refine CommonTable.introduces h (.inr (isKeyword_of_subset s.isKeyword_start (by simp))) ⟨[], ?_⟩
      exact ⟨(s.more.flatMap fun p => p.1 :: p.2.tokens) ++ s.body, by simp [tokens, hrecursive]⟩
    | some t =>
      have ht := s.isKeyword_recursive t hrecursive
      refine CommonTable.introduces h (.inr (isKeyword_of_subset ht (by simp))) ⟨[s.start], ?_⟩
      exact ⟨(s.more.flatMap fun p => p.1 :: p.2.tokens) ++ s.body, by simp [tokens, hrecursive]⟩
  · obtain ⟨⟨comma, d⟩, hp, rfl⟩ := mem_map.mp hmore
    obtain ⟨before, after, hsplit⟩ := append_of_mem hp
    refine CommonTable.introduces h (.inl (s.isPunct_comma _ hp))
      ⟨s.start :: (s.recursive.toList ++ s.first.tokens ++
        before.flatMap fun p => p.1 :: p.2.tokens), ?_⟩
    exact ⟨(after.flatMap fun p => p.1 :: p.2.tokens) ++ s.body, by simp [tokens, hsplit]⟩

end WithStatement

/-- **Which common tables are taken for tables.**  One without a list of columns never is.  One with
such a list is as soon as it is referred to, unless its name is also introduced without one. -/
theorem common_table_reported_iff {text : String} {s : WithStatement}
    (h : (tokenize text).tokens = s.tokens) : ∀ c ∈ s.commonTables,
      (c.columns = [] → ∀ u ∈ (analyze text).tables, u.name ≠ c.name.lowerText) ∧
      ((∃ u ∈ (analyze text).tables, u.name = c.name.lowerText) ↔
        (∃ u ∈ references s.tokens, u.name = c.name.lowerText) ∧
          ¬Introduces c.name.lowerText s.tokens) := by
  intro c hc
  have hiff := h ▸ exists_mem_tables_analyze_iff text c.name.lowerText
  refine ⟨?_, hiff⟩
  intro hcolumns u hu hname
  exact (hiff.mp ⟨u, hu, hname⟩).2 (WithStatement.introduces hc hcolumns)

section Listed

/-- A common table without and one with a list of columns. -/
def twoCommonTables : WithStatement where
  start := .ofWord "with"
  recursive := none
  first := ⟨.ofWord "a", [], .ofWord "as", [.ofMark '(', .ofWord "q", .ofMark ')'],
    by decide, by decide, by decide, by decide⟩
  more := [(.ofMark ',', ⟨.ofWord "c", [.ofMark '(', .ofWord "n", .ofMark ')'], .ofWord "as",
    [.ofMark '(', .ofWord "q", .ofMark ')'], by decide, by decide, by decide, by decide⟩)]
  body := [.ofWord "from", .ofWord "a", .ofMark ',', .ofWord "c"]

theorem common_table_without_columns_not_reported :
    (tokenize "with a as (q), c (n) as (q) from a, c").tokens = twoCommonTables.tokens ∧
      ∀ u ∈ (analyze "with a as (q), c (n) as (q) from a, c").tables,
        u.name ≠ twoCommonTables.first.name.lowerText := by
  have htokens : (tokenize "with a as (q), c (n) as (q) from a, c").tokens =
      twoCommonTables.tokens := by decide +kernel
  exact ⟨htokens, (common_table_reported_iff htokens _ List.mem_cons_self).1 rfl⟩

/-- **A common table with a list of columns is taken for a table.** -/
theorem common_table_with_columns_reported :
    (tokenize "with a as (q), c (n) as (q) from a, c").tokens = twoCommonTables.tokens ∧
      twoCommonTables.commonTables.map (·.name.lowerText) = ["a", "c"] ∧
      (analyze "with a as (q), c (n) as (q) from a, c").tables.map (·.name) = ["c"] := by
  decide +kernel

end Listed

end AppAtlas.Sql
