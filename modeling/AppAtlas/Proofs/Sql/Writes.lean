import AppAtlas.Proofs.Sql.References

/-!
# What queries write

A statement without any of the words that start a change writes nothing, one should think.  The walk
takes a table to be written by the word before it and, for `TABLE`, by the keyword before that one,
so there are two exceptions.  A name behind the locking clause `FOR UPDATE` is taken for a table,
and so is a name behind `TABLE` if the last keyword passed is one of those that stand between
`CREATE` and `TABLE`, even without a `CREATE`.

* `Overlooked`, `otherMoves_stepMove`: tokens among which the walk passes no keyword.
* `Querying.move`, `query_writes_only_behind_lock_or_declaration`: the walk over a query, and what
  it takes to be written.
-/

namespace AppAtlas.Sql

open List

/-! ### Queries -/

/-- Keywords that start a change or name its target. -/
def writingWords : List String :=
  ["insert", "delete", "merge", "into", "truncate", "create", "alter", "drop", "replace"]

/-- The words that may stand between `CREATE` and `TABLE`. -/
def temporaryWords : List String :=
  ["temporary", "temp", "global", "local", "external"]

/-- Whether `UPDATE` stands directly behind `FOR` only.  `locking` says whether the token before the
list is a `FOR`. -/
def updatesLock (locking : Bool) : List Token → Bool
  | [] => true
  | t :: ts => (locking || !t.isKeyword ["update"]) && updatesLock (t.isKeyword ["for"]) ts

/-- **Whether some tokens are those of a query**: none of them starts a change, and `UPDATE` only
ends a locking clause. -/
def isQuery (ts : List Token) : Bool :=
  ts.all (!·.isKeyword writingWords) && updatesLock false ts

theorem lock_of_updatesLock {locking : Bool} {before ts : List Token} {t : Token}
    (h : updatesLock locking (before ++ t :: ts)) (ht : t.isKeyword ["update"]) :
    (before.getLast?.elim locking (·.isKeyword ["for"])) = true := by
  induction before generalizing locking with
  | nil =>
    rw [nil_append, updatesLock, ht] at h
    simp_all
  | cons b before ih =>
    rw [cons_append, updatesLock, Bool.and_eq_true] at h
    have hlock := ih h.2
    rw [getLast?_cons]
    cases hlast : before.getLast? <;> simp_all

theorem keyword?_eq_none_of_isPunct {t : Token} {mark : Char} (h : t.isPunct mark) :
    t.keyword? = none := by
  have hsort : t.sort = .punct mark := by simpa [Token.isPunct] using h
  simp [Token.keyword?, hsort]

/-! ### What a move does -/

theorem access_of_reference? {access : Access} {ts : List Token} {u : TableUse}
    (h : reference? access ts = some u) : u.access = access := by
  rw [reference?] at h
  split at h
  · cases h
  · dsimp only at h
    split at h
    · cases h
    split at h
    · cases h
    split at h
    · cases h
    · cases h
      rfl

/-- **The words behind which a table is written to**, at a certain stand. -/
inductive WriteBehind (ts : List Token) (s : Stand) (u : TableUse) : String → Prop
  | from (h : s.deleting = true) : WriteBehind ts s u "from"
  | into : WriteBehind ts s u "into"
  | delete : WriteBehind ts s u "delete"
  | truncate : WriteBehind ts s u "truncate"
  | update (h : reference? .write ts = some u) : WriteBehind ts s u "update"
  | table (hdeclaring : s.keyword ∈ declaringWords)
    (h : reference? .write (ts.drop (declaringLead ts)) = some u) : WriteBehind ts s u "table"

/-- What there is to say of the move a keyword makes. -/
structure KeywordMoves (keyword : String) (ts : List Token) (s : Stand) (m : Move) : Prop where
  deleting : m.stand.deleting = true → s.deleting = true ∨ keyword = "delete"
  write : ∀ u ∈ m.met, u.access = .write → WriteBehind ts s u keyword

section KeywordMoves

variable {keyword : String} {ts : List Token} {s : Stand} {m : Move}

theorem keywordMoves_of_met_eq_none (hdeleting : m.stand.deleting = s.deleting)
    (hmet : m.met = none) : KeywordMoves keyword ts s m := by
  refine ⟨fun h => .inl (hdeleting ▸ h), ?_⟩
  intro u hu
  rw [hmet] at hu
  cases hu

theorem keywordMoves_of_met_read {rest : List Token} (hdeleting : m.stand.deleting = s.deleting)
    (hmet : m.met = reference? .read rest) : KeywordMoves keyword ts s m := by
  refine ⟨fun h => .inl (hdeleting ▸ h), ?_⟩
  intro u hu hwrite
  rw [hmet] at hu
  rw [access_of_reference? hu] at hwrite
  cases hwrite

theorem keywordMoves_keywordMove (keyword : String) (ts : List Token) (s : Stand) :
    KeywordMoves keyword ts s (keywordMove keyword ts s) := by
  have hstill : ∀ clause,
      KeywordMoves keyword ts s { stand := { s with clause := clause } } :=
    fun clause => keywordMoves_of_met_eq_none rfl rfl
  have hnothing : KeywordMoves keyword ts s { stand := s } := keywordMoves_of_met_eq_none rfl rfl
  rw [keywordMove.eq_def]
  split
  -- most keywords set the clause or do nothing
  any_goals exact hstill _
  · refine ⟨fun h => absurd h Bool.false_ne_true, ?_⟩
    intro u hu hwrite
    rw [access_of_reference? hu] at hwrite
    cases hdeleting : s.deleting with
    | true => exact .from hdeleting
    | false =>
      rw [hdeleting] at hwrite
      cases hwrite
  · exact keywordMoves_of_met_read rfl rfl
  · refine ⟨?_, fun u _ _ => .into⟩
    dsimp only
    split <;> exact .inl
  · split
    · exact hstill .assignment
    · exact ⟨.inl, fun u hu _ => .update hu⟩
  · exact ⟨fun _ => .inr rfl, fun u _ _ => .delete⟩
  · split
    · exact hnothing
    · exact keywordMoves_of_met_read rfl rfl
  · exact ⟨.inl, fun u _ _ => .truncate⟩
  · split
    · next hkeyword =>
      exact ⟨.inl, fun u hu _ => .table (contains_iff_mem.mp hkeyword) hu⟩
    · exact hnothing
  · split
    · exact hstill .grouping
    · exact hnothing
  · exact keywordMoves_of_met_eq_none rfl rfl

end KeywordMoves

theorem stepMove_of_keyword {t : Token} {keyword : String} (h : t.keyword? = some keyword)
    (ts : List Token) (s : Stand) : stepMove t ts s = { keywordMove keyword ts s with
        stand := { (keywordMove keyword ts s).stand with keyword := keyword } } := by
  have hpunct : ∀ mark, ¬t.isPunct mark := by
    intro mark hmark
    rw [keyword?_eq_none_of_isPunct hmark] at h
    cases h
  rw [stepMove, if_neg (hpunct '('), if_neg (hpunct ')'), if_neg (by simp [hpunct ',']), h]

/-! ### Keywords that are not passed -/

/-- Keywords that may belong to a table reference or an alias. -/
def passingWords : List String :=
  ["as", "only", "lateral", "table"]

/-- **Tokens among which the walk passes no keyword**: those there are belong to table references
and aliases, or are parts of dotted names. -/
inductive Overlooked : List Token → Prop
  | nil : Overlooked []
  | cons {t : Token} {ts : List Token} (h : t.keyword? = none ∨ t.isKeyword passingWords = true)
    (hts : Overlooked ts) : Overlooked (t :: ts)
  | part {dot t : Token} {ts : List Token} (h : dot.isPunct '.' = true) (hts : Overlooked ts) :
    Overlooked (dot :: t :: ts)

theorem Overlooked.append {a b : List Token} (ha : Overlooked a) (hb : Overlooked b) :
    Overlooked (a ++ b) := by
  induction ha with
  | nil => exact hb
  | cons h _ ih => exact .cons h ih
  | part h _ ih => exact .part h ih

theorem overlooked_dottedParts (accepts : Token → Bool) (ts : List Token) :
    Overlooked (ts.take (2 * (dottedParts accepts ts).length)) := by
  fun_induction dottedParts accepts ts with
  | case1 dot t ts h ih =>
    rw [Bool.and_eq_true] at h
    exact .part h.1 ih
  | case2 => exact .nil
  | case3 => exact .nil

theorem overlooked_alias (ts : List Token) : Overlooked (ts.take (aliasLength ts)) := by
  rw [aliasLength, readAlias]
  have hlead : Overlooked (ts.take (if ts.head?.any (·.isKeyword ["as"]) then 1 else 0)) := by
    cases ts with
    | nil => simpa using Overlooked.nil
    | cons t ts =>
      cases has : t.isKeyword ["as"] with
      | false => simpa [has] using Overlooked.nil
      | true =>
        have hpassing : t.isKeyword passingWords :=
          isKeyword_of_subset has (by simp [passingWords])
        simpa [has] using Overlooked.cons (.inr hpassing) .nil
  generalize (if ts.head?.any (·.isKeyword ["as"]) then 1 else 0) = lead at hlead ⊢
  cases hts : ts.drop lead with
  | nil => exact hlead
  | cons t rest =>
    dsimp only
    split
    · next hname =>
      have hkeyword : t.keyword? = none := by simp_all [Token.isPlainName]
      rw [take_add, hts]
      exact hlead.append (.cons (.inl hkeyword) .nil)
    · exact hlead

theorem overlooked_tableLead (ts : List Token) : Overlooked (ts.take (tableLead ts)) := by
  rw [tableLead]
  induction ts with
  | nil => exact .nil
  | cons t ts ih =>
    rw [takeWhile_cons]
    split
    · next hlead => exact .cons (.inr (isKeyword_of_subset hlead (subset_cons_self _ _))) ih
    · exact .nil

theorem overlooked_table (access : Access) (ts : List Token) :
    Overlooked (ts.take (tableLength access ts)) := by
  have hlead := overlooked_tableLead ts
  rw [tableLength]
  cases hts : ts.drop (tableLead ts) with
  | nil =>
    rw [readTable_of_drop_eq_nil hts]
    exact hlead
  | cons first rest =>
    rw [readTable_of_drop_eq_cons hts]
    dsimp only
    split
    · exact hlead
    next hfirst =>
    have hkeyword : first.keyword? = none := by simp_all
    have hparts := overlooked_dottedParts Token.isNamePart rest
    generalize (dottedParts Token.isNamePart rest).length = n at hparts ⊢
    have htake : ts.take (tableLead ts + 1 + 2 * n) =
        ts.take (tableLead ts) ++ ([first] ++ rest.take (2 * n)) := by
      rw [Nat.add_assoc, take_add, hts, Nat.add_comm 1]
      rfl
    have hname : Overlooked (ts.take (tableLead ts + 1 + 2 * n)) := by
      rw [htake]
      exact hlead.append (.cons (.inl hkeyword) hparts)
    split
    · exact hname
    · have hafter : ts.drop (tableLead ts + 1 + 2 * n) = rest.drop (2 * n) := by
        rw [Nat.add_assoc, ← drop_drop, hts, Nat.add_comm 1, drop_succ_cons]
      rw [(makes_readAlias [] (rest.drop (2 * n)) _ _).taken, take_add, hafter]
      exact hname.append (overlooked_alias _)

/-- What there is to say of the move over a token that is no keyword. -/
structure OtherMoves (t : Token) (ts : List Token) (s : Stand) (m : Move) : Prop where
  keyword_eq : m.stand.keyword = s.keyword
  deleting_eq : m.stand.deleting = s.deleting
  read : ∀ u ∈ m.met, u.access = .read
  overlooked : Overlooked (t :: ts.take m.taken)

theorem otherMoves_stepMove {t : Token} (h : t.keyword? = none) (ts : List Token) (s : Stand) :
    OtherMoves t ts s (stepMove t ts s) := by
  have hfirst : ∀ {n : Nat}, Overlooked (ts.take n) → Overlooked (t :: ts.take n) :=
    fun hrest => .cons (.inl h) hrest
  have hnone : ∀ u ∈ (none : Option TableUse), u.access = .read := by
    intro u hu
    cases hu
  rw [stepMove]
  split
  · exact ⟨rfl, rfl, hnone, .cons (.inl h) .nil⟩
  split
  · refine ⟨rfl, rfl, hnone, hfirst ?_⟩
    dsimp only
    split
    · exact overlooked_alias ts
    · exact .nil
  split
  · exact ⟨rfl, rfl, fun u hu => access_of_reference? hu, hfirst (overlooked_table .read ts)⟩
  rw [h]
  refine ⟨rfl, rfl, hnone, hfirst ?_⟩
  dsimp only
  split
  · exact overlooked_dottedParts _ ts
  · exact .nil

/-! ### The writes of a query -/

/-- A table whose name follows a locking clause. -/
def NamedByLock (ts : List Token) (u : TableUse) : Prop :=
  ∃ (before : List Token) (lock update : Token) (after : List Token),
    ts = before ++ lock :: update :: after ∧ lock.isKeyword ["for"] = true ∧
      update.isKeyword ["update"] = true ∧ reference? .write after = some u

/-- Tokens at whose end the last keyword passed is one of the temporary words. -/
def EndsDeclaring (ts : List Token) : Prop :=
  ∃ (before : List Token) (word : Token) (between : List Token),
    ts = before ++ word :: between ∧ word.isKeyword temporaryWords = true ∧ Overlooked between

/-- A table whose name follows `TABLE`, the last keyword before that being one of the temporary
words. -/
def NamedByDeclaration (ts : List Token) (u : TableUse) : Prop :=
  ∃ (before : List Token) (table : Token) (after : List Token),
    ts = before ++ table :: after ∧ EndsDeclaring before ∧ table.isKeyword ["table"] = true ∧
      reference? .write (after.drop (declaringLead after)) = some u

/-- Where the walk over a query can stand. -/
structure Querying (before : List Token) (s : Stand) : Prop where
  notDeleting : s.deleting = false
  notWriting : s.keyword ∉ writingWords
  declaring : s.keyword ∈ temporaryWords → EndsDeclaring before

theorem mem_temporaryWords_of_mem_declaringWords {keyword : String} (h : keyword ∈ declaringWords)
    (hwriting : keyword ∉ writingWords) : keyword ∈ temporaryWords := by
  simp only [declaringWords, writingWords, temporaryWords, mem_cons, not_mem_nil] at *
  grind

theorem taken_keywordMove_of_mem_temporaryWords {keyword : String} (h : keyword ∈ temporaryWords)
    (ts : List Token) (s : Stand) : (keywordMove keyword ts s).taken = 0 := by
  simp only [temporaryWords, mem_cons, not_mem_nil, or_false] at h
  rcases h with rfl | rfl | rfl | rfl | rfl <;> rfl

theorem EndsDeclaring.append {before between : List Token} (h : EndsDeclaring before)
    (hbetween : Overlooked between) : EndsDeclaring (before ++ between) := by
  obtain ⟨front, word, rest, rfl, hword, hrest⟩ := h
  refine ⟨front, word, rest ++ between, ?_, hword, hrest.append hbetween⟩
  rw [append_assoc, cons_append]

section Query

variable {tokens before ts : List Token} {t : Token} {s : Stand} {keyword : String}

theorem not_mem_writingWords (hquery : isQuery tokens) (ht : t ∈ tokens)
    (hkeyword : t.keyword? = some keyword) : keyword ∉ writingWords := by
  intro hmem
  have hwriting := isKeyword_eq_true_iff.mpr ⟨keyword, hmem, hkeyword⟩
  rw [isQuery, Bool.and_eq_true, all_eq_true] at hquery
  have hother := hquery.1 t ht
  rw [hwriting] at hother
  cases hother

/-- **A move keeps the walk over a query where it may stand.** -/
theorem Querying.move (hquery : isQuery tokens) (htokens : tokens = before ++ t :: ts)
    (h : Querying before s) :
    Querying (before ++ t :: ts.take (stepMove t ts s).taken) (stepMove t ts s).stand := by
  cases hkeyword : t.keyword? with
  | none =>
    have hother := otherMoves_stepMove hkeyword ts s
    refine ⟨hother.deleting_eq.trans h.notDeleting, ?_, ?_⟩
    · rw [hother.keyword_eq]
      exact h.notWriting
    · intro hdeclaring
      rw [hother.keyword_eq] at hdeclaring
      exact (h.declaring hdeclaring).append hother.overlooked
  | some keyword =>
    have hwriting := not_mem_writingWords hquery (by simp [htokens]) hkeyword
    rw [stepMove_of_keyword hkeyword]
    refine ⟨?_, hwriting, ?_⟩
    · rw [Bool.eq_false_iff]
      intro hdeleting
      rcases (keywordMoves_keywordMove keyword ts s).deleting hdeleting with hbefore | rfl
      · rw [h.notDeleting] at hbefore
        cases hbefore
      · exact hwriting (by decide)
    · intro hdeclaring
      refine ⟨before, t, [], ?_, isKeyword_eq_true_iff.mpr ⟨keyword, hdeclaring, hkeyword⟩, .nil⟩
      have htaken : (keywordMove keyword ts s).taken = 0 :=
        taken_keywordMove_of_mem_temporaryWords hdeclaring ts s
      rw [htaken, take_zero]

theorem Querying.write_of_met (hquery : isQuery tokens) (htokens : tokens = before ++ t :: ts)
    (h : Querying before s) {u : TableUse} (hu : u ∈ (stepMove t ts s).met)
    (hwrite : u.access = .write) : NamedByLock tokens u ∨ NamedByDeclaration tokens u := by
  cases hkeyword : t.keyword? with
  | none =>
    rw [(otherMoves_stepMove hkeyword ts s).read u hu] at hwrite
    cases hwrite
  | some keyword =>
    have hwriting := not_mem_writingWords hquery (by simp [htokens]) hkeyword
    rw [stepMove_of_keyword hkeyword] at hu
    cases (keywordMoves_keywordMove keyword ts s).write u hu hwrite with
    | «from» hdeleting =>
      rw [h.notDeleting] at hdeleting
      cases hdeleting
    | into => exact absurd (by decide) hwriting
    | delete => exact absurd (by decide) hwriting
    | truncate => exact absurd (by decide) hwriting
    | update hreference =>
      have hupdate : t.isKeyword ["update"] :=
        isKeyword_eq_true_iff.mpr ⟨"update", mem_cons_self, hkeyword⟩
      rw [isQuery, Bool.and_eq_true, htokens] at hquery
      have hlock := lock_of_updatesLock hquery.2 hupdate
      rcases eq_nil_or_concat before with rfl | ⟨front, lock, rfl⟩
      · cases hlock
      · refine .inl ⟨front, lock, t, ts, by simp [htokens], ?_, hupdate, hreference⟩
        simpa using hlock
    | table hdeclaring hreference =>
      exact .inr ⟨before, t, ts, htokens,
        h.declaring (mem_temporaryWords_of_mem_declaringWords hdeclaring h.notWriting),
        isKeyword_eq_true_iff.mpr ⟨"table", mem_cons_self, hkeyword⟩, hreference⟩

end Query

/-- **Queries write nothing**, except what a locking clause or a declaration without `CREATE` seems
to name: a name directly behind `FOR UPDATE`, and one behind `TABLE` where the last keyword passed
is a temporary word. -/
theorem query_writes_only_behind_lock_or_declaration {text : String}
    (hquery : isQuery (tokenize text).tokens = true) :
    ∀ u ∈ (analyze text).tables, u.access = .write →
      NamedByLock (tokenize text).tokens u ∨ NamedByDeclaration (tokenize text).tokens u := by
  intro u hu
  refine forall_references Querying (fun u => u.access = .write →
    NamedByLock (tokenize text).tokens u ∨ NamedByDeclaration (tokenize text).tokens u)
    ?_ ?_ u (mem_tables_analyze hu).1
  · exact ⟨rfl, by decide, fun h => absurd h (by decide)⟩
  · intro before t ts s htokens hquerying
    exact ⟨hquerying.move hquery htokens, fun u hu => hquerying.write_of_met hquery htokens hu⟩

theorem locking_join_is_query :
    isQuery (tokenize "select a from t join u on t.a = u.a for update of t").tokens = true ∧
      ∀ v ∈ (analyze "select a from t join u on t.a = u.a for update of t").tables, v.access = .write →
        NamedByLock (tokenize "select a from t join u on t.a = u.a for update of t").tokens v ∨
          NamedByDeclaration
            (tokenize "select a from t join u on t.a = u.a for update of t").tokens v := by
  have hquery : isQuery (tokenize "select a from t join u on t.a = u.a for update of t").tokens := by
    decide +kernel
  exact ⟨hquery, query_writes_only_behind_lock_or_declaration hquery⟩

/-- A query that is to wait for no lock is taken to write a table `nowait`. -/
theorem lock_option_taken_for_written_table :
    isQuery (tokenize "select 1 from t for update nowait").tokens = true ∧
      (analyze "select 1 from t for update nowait").tables.map (fun u => (u.name, u.access)) =
        [("t", .read), ("nowait", .write)] := by
  decide +kernel

/-- One without a `CREATE` is taken to make a table. -/
example : isQuery (tokenize "select local table t").tokens = true ∧
    (analyze "select local table t").tables.map (fun u => (u.name, u.access)) = [("t", .write)] := by
  decide +kernel

end AppAtlas.Sql
