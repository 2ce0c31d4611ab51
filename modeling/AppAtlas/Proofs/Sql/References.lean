import AppAtlas.Sql.Usage

/-!
# Which tables a walk notes

Of all that the walk knows, only its stand decides where it goes: the clause, those around it, the
last keyword and whether a `DELETE` waits.  What it has found so far does not, and neither does it
matter which names are common tables.  So the walk can be made without looking at columns and
aliases, meeting at most one table reference at each step.  What the full walk notes are the
references met, without those to common tables.

* `readTable_of_drop_eq_cons`: a table reference read in two steps, its name and its alias.
* `references`, `tables_walkTokens`: the table references of a statement, and those that are noted.
* `forall_references`: what every move keeps, and what it says of the reference it meets.
-/

namespace AppAtlas.Sql

open List

/-! ### Tokens -/

def Token.ofWord (text : String) : Token :=
  ⟨.word, text, false, 1⟩

def Token.ofMark (c : Char) : Token :=
  ⟨.punct c, c.toString, false, 1⟩

theorem isKeyword_eq_true_iff {t : Token} {words : List String} :
    t.isKeyword words ↔ ∃ keyword ∈ words, t.keyword? = some keyword := by
  cases hkeyword : t.keyword? <;> simp [Token.isKeyword, hkeyword]

theorem isKeyword_of_subset {t : Token} {words more : List String} (h : t.isKeyword words)
    (hsub : words ⊆ more) : t.isKeyword more := by
  obtain ⟨keyword, hmem, hkeyword⟩ := isKeyword_eq_true_iff.mp h
  exact isKeyword_eq_true_iff.mpr ⟨keyword, hsub hmem, hkeyword⟩

/-! ### Table references -/

/-- The words that may stand before a table's name. -/
def tableLead (ts : List Token) : Nat :=
  (ts.takeWhile (·.isKeyword ["only", "lateral", "table"])).length

def lastPart (first : Token) (more : List Token) : Token :=
  (first :: more).getLast (cons_ne_nil first more)

def schemaOf (first : Token) (more : List Token) : Option String :=
  ((first :: more).dropLast.getLast?.filter fun p => !p.dynamic).map Token.lowerText

/-- The table a dotted name is of, unless it is nothing but substitutions or that of a common table
expression. -/
def tableName? (common : List String) (last : Token) : Option String :=
  if last.sort != .dynamic && !common.contains last.lowerText then some last.lowerText else none

def noteTable (common : List String) (access : Access) (first : Token) (more : List Token)
    (w : Walk) : Walk :=
  let last := lastPart first more
  let found := last.sort != .dynamic && !common.contains last.lowerText
  let use : TableUse := ⟨last.lowerText, schemaOf first more, access, last.dynamic, first.line⟩
  let w := if found then { w with tables := w.tables ++ [use] } else w
  if found || common.contains last.lowerText then
    { w with aliases := (last.lowerText, tableName? common last) :: w.aliases }
  else w

theorem accepts_of_mem_dottedParts {accepts : Token → Bool} {t : Token} {ts : List Token}
    (h : t ∈ dottedParts accepts ts) : accepts t := by
  fun_induction dottedParts accepts ts with
  | case1 dot u ts hdot ih =>
    rcases mem_cons.mp h with rfl | h
    · simp_all
    · exact ih h
  | case2 => cases h
  | case3 => cases h

theorem readTable_of_drop_eq_nil {ts : List Token} (h : ts.drop (tableLead ts) = [])
    (common : List String) (access : Access) (w : Walk) :
    readTable common access ts w = (w, tableLead ts) := by
  rw [tableLead] at h
  rw [readTable, h]
  rfl

theorem readTable_of_drop_eq_cons {ts rest : List Token} {first : Token}
    (h : ts.drop (tableLead ts) = first :: rest) (common : List String) (access : Access)
    (w : Walk) : readTable common access ts w =
      if first.keyword?.isSome || !first.isNamePart then (w, tableLead ts) else
        let more := dottedParts Token.isNamePart rest
        let after := rest.drop (2 * more.length)
        let taken := tableLead ts + 1 + 2 * more.length
        if access == .read && after.head?.any (·.isPunct '(') then (w, taken)
        else
          let r := readAlias (tableName? common (lastPart first more)) after
            (noteTable common access first more w)
          (r.1, taken + r.2) := by
  rw [tableLead] at h ⊢
  rw [readTable, h]
  rfl

def aliasLength (ts : List Token) : Nat :=
  (readAlias none ts {}).2

def tableLength (access : Access) (ts : List Token) : Nat :=
  (readTable [] access ts {}).2

def reference? (access : Access) (ts : List Token) : Option TableUse :=
  match ts.drop (tableLead ts) with
  | [] => none
  | first :: rest =>
    let more := dottedParts Token.isNamePart rest
    let last := lastPart first more
    if first.keyword?.isSome || !first.isNamePart then none
    else if access == .read && (rest.drop (2 * more.length)).head?.any (·.isPunct '(') then none
    else if last.sort = .dynamic then none
    else some ⟨last.lowerText, schemaOf first more, access, last.dynamic, first.line⟩

/-! ### Moves -/

/-- Where the walk stands in a statement, apart from what it has found. -/
structure Stand where
  clause : Clause := .other
  outer : List Clause := []
  keyword : String := ""
  deleting : Bool := false
deriving DecidableEq, Repr

def Walk.stand (w : Walk) : Stand :=
  ⟨w.clause, w.outer, w.keyword, w.deleting⟩

/-- **A step of the walk, columns aside**: where it leads, how many of the following tokens belong
to it, and the table reference it meets. -/
structure Move where
  stand : Stand
  taken : Nat := 0
  met : Option TableUse := none
deriving DecidableEq, Repr

def tableMove (access : Access) (ts : List Token) (s : Stand) : Move :=
  ⟨s, tableLength access ts, reference? access ts⟩

/-- The words before `TABLE` behind which a table is made or changed. -/
def declaringWords : List String :=
  ["create", "alter", "drop", "temporary", "temp", "global", "local", "external"]

/-- The number of words between `TABLE` and the name of a table that is made or changed. -/
def declaringLead (ts : List Token) : Nat :=
  (ts.takeWhile (·.isKeyword ["if", "not", "exists", "only"])).length

def keywordMove (keyword : String) (ts : List Token) (s : Stand) : Move :=
  match keyword with
  | "select" => { stand := { s with clause := .select } }
  | "from" =>
    tableMove (if s.deleting then .write else .read) ts
      { s with deleting := false, clause := .sources }
  | "join" => tableMove .read ts { s with clause := .sources }
  | "into" =>
    let m := tableMove .write ts { s with clause := .other }
    let rest := ts.drop m.taken
    if rest.head?.any (·.isPunct '(') then { m with taken := m.taken + (namesInside 0 rest).2 } else m
  | "update" =>
    if s.keyword = "key" ∨ s.keyword = "do" then { stand := { s with clause := .assignment } }
    else tableMove .write ts s
  | "delete" =>
    if ts.head?.any Token.isPlainName then tableMove .write ts { s with deleting := false }
    else { stand := { s with deleting := true } }
  | "using" => if ts.head?.any (·.isPunct '(') then { stand := s } else tableMove .read ts s
  | "truncate" =>
    let lead := if ts.head?.any (·.isKeyword ["table"]) then 1 else 0
    let m := tableMove .write (ts.drop lead) s
    { m with taken := lead + m.taken }
  | "table" =>
    if declaringWords.contains s.keyword then
      let m := tableMove .write (ts.drop (declaringLead ts)) { s with clause := .other }
      { m with taken := declaringLead ts + m.taken }
    else { stand := s }
  | "set" => { stand := { s with clause := .assignment } }
  | "where" | "having" => { stand := { s with clause := .condition } }
  | "on" => { stand := { s with clause := .joinCondition } }
  | "by" =>
    if ["group", "order", "partition"].contains s.keyword then
      { stand := { s with clause := .grouping } }
    else { stand := s }
  | "values" => { stand := { s with clause := .values } }
  | "limit" | "offset" | "union" | "except" | "intersect" | "minus" | "returning" =>
    { stand := { s with clause := .other } }
  | "as" => { stand := s, taken := if ts.head?.any Token.isName then 1 else 0 }
  | _ => { stand := s }

/-- The number of tokens behind the first one that belong to a dotted name of a column. -/
def columnLength (ts : List Token) : Nat :=
  2 * (dottedParts (fun p => p.isName || p.isPunct '*') ts).length

def stepMove (t : Token) (ts : List Token) (s : Stand) : Move :=
  if t.isPunct '(' then { stand := { s with outer := s.clause :: s.outer } }
  else if t.isPunct ')' then
    let s := { s with clause := s.outer.headD .other, outer := s.outer.tail }
    { stand := s, taken := if s.clause == .sources then aliasLength ts else 0 }
  else if t.isPunct ',' && s.clause == .sources then tableMove .read ts s
  else
    match t.keyword? with
    | some keyword =>
      let m := keywordMove keyword ts s
      { m with stand := { m.stand with keyword := keyword } }
    | none => { stand := s, taken := if t.isName && !t.dynamic then columnLength ts else 0 }

/-- The table references that are met among some tokens, of which the first `skip` belong to a move
already made. -/
def referencesFrom (skip : Nat) (s : Stand) : List Token → List TableUse
  | [] => []
  | t :: ts =>
    match skip with
    | skip + 1 => referencesFrom skip s ts
    | 0 =>
      let m := stepMove t ts s
      m.met.toList ++ referencesFrom m.taken m.stand ts

/-- **The table references of a statement**, at their face value: those to common tables too. -/
def references (ts : List Token) : List TableUse :=
  referencesFrom 0 {} ts

/-! ### Steps make moves -/

def noted (common : List String) (us : List TableUse) : List TableUse :=
  us.filter fun u => !common.contains u.name

/-- **A step makes a move**: it leads where the move leads and notes the reference it meets, unless
it is to a common table. -/
structure Makes (common : List String) (w : Walk) (r : Walk × Nat) (m : Move) : Prop where
  stand : r.1.stand = m.stand
  taken : r.2 = m.taken
  tables : r.1.tables = w.tables ++ noted common m.met.toList

theorem makes_of_tables_eq {common : List String} {w : Walk} {r : Walk × Nat} {m : Move}
    (hstand : r.1.stand = m.stand) (htaken : r.2 = m.taken) (hmet : m.met = none)
    (htables : r.1.tables = w.tables) : Makes common w r m :=
  ⟨hstand, htaken, by simp [htables, hmet, noted]⟩

theorem Makes.of_tables_eq {common : List String} {w w' : Walk} {r : Walk × Nat} {m : Move}
    (h : Makes common w' r m) (hw : w'.tables = w.tables) : Makes common w r m :=
  ⟨h.stand, h.taken, hw ▸ h.tables⟩

section Parts

variable (common : List String) (access : Access) (ts : List Token) (w : Walk)

theorem makes_readAlias (table : Option String) :
    Makes common w (readAlias table ts w) ⟨w.stand, aliasLength ts, none⟩ := by
  rw [aliasLength, readAlias, readAlias]
  cases ts.drop (if ts.head?.any (·.isKeyword ["as"]) then 1 else 0) with
  | nil => exact makes_of_tables_eq rfl rfl rfl rfl
  | cons t rest =>
    dsimp only
    split
    · exact makes_of_tables_eq rfl rfl rfl rfl
    · exact makes_of_tables_eq rfl rfl rfl rfl

theorem stand_noteTable (first : Token) (more : List Token) :
    (noteTable common access first more w).stand = w.stand := by
  rw [noteTable]
  split <;> split <;> rfl

theorem tables_noteTable (first : Token) (more : List Token) :
    (noteTable common access first more w).tables = w.tables ++ noted common
      (if (lastPart first more).sort = .dynamic then none
        else some ⟨(lastPart first more).lowerText, schemaOf first more, access,
          (lastPart first more).dynamic, first.line⟩ : Option TableUse).toList := by
  rw [noteTable]
  generalize lastPart first more = last
  by_cases hsort : last.sort = .dynamic <;> by_cases hcommon : last.lowerText ∈ common <;>
    simp [hsort, hcommon, noted]

theorem makes_readTable :
    Makes common w (readTable common access ts w) (tableMove access ts w.stand) := by
  rw [tableMove, tableLength, reference?]
  cases hts : ts.drop (tableLead ts) with
  | nil =>
    rw [readTable_of_drop_eq_nil hts, readTable_of_drop_eq_nil hts]
    exact makes_of_tables_eq rfl rfl rfl rfl
  | cons first rest =>
    rw [readTable_of_drop_eq_cons hts, readTable_of_drop_eq_cons hts]
    dsimp only
    split
    · exact makes_of_tables_eq rfl rfl rfl rfl
    split
    · exact makes_of_tables_eq rfl rfl rfl rfl
    · have halias := makes_readAlias common
        (rest.drop (2 * (dottedParts Token.isNamePart rest).length))
        (noteTable common access first (dottedParts Token.isNamePart rest) w)
        (tableName? common (lastPart first (dottedParts Token.isNamePart rest)))
      have hnone := makes_readAlias []
        (rest.drop (2 * (dottedParts Token.isNamePart rest).length))
        (noteTable [] access first (dottedParts Token.isNamePart rest) {})
        (tableName? [] (lastPart first (dottedParts Token.isNamePart rest)))
      refine ⟨?_, ?_, ?_⟩
      · rw [halias.stand, stand_noteTable]
      · rw [halias.taken, hnone.taken]
      · rw [halias.tables, tables_noteTable]
        simp [noted]

theorem makes_readInsertColumns :
    Makes common w (readInsertColumns ts w) ⟨w.stand, (namesInside 0 ts).2, none⟩ := by
  rw [readInsertColumns]
  cases hnames : namesInside 0 ts with
  | mk names n =>
    dsimp only
    split <;> exact makes_of_tables_eq rfl rfl rfl rfl

theorem makes_readName (previous : Option Token) (t : Token) :
    Makes common w (readName common previous t ts w) ⟨w.stand, columnLength ts, none⟩ := by
  rw [readName, columnLength]
  by_cases hdot : ts.head?.any (·.isPunct '.')
  · rw [if_pos hdot]
    dsimp only
    split
    · split <;> exact makes_of_tables_eq rfl rfl rfl rfl
    · exact makes_of_tables_eq rfl rfl rfl rfl
  · -- without a dot there is nothing more to the name
    have hmore : dottedParts (fun p => p.isName || p.isPunct '*') ts = [] := by
      rcases ts with _ | ⟨dot, _ | ⟨u, ts⟩⟩
      · rfl
      · rfl
      · have hfalse : dot.isPunct '.' = false := by simpa using hdot
        simp [dottedParts, hfalse]
    rw [if_neg hdot, hmore]
    split
    · exact makes_of_tables_eq rfl rfl rfl rfl
    split
    · exact makes_of_tables_eq rfl rfl rfl rfl
    dsimp only
    split <;> exact makes_of_tables_eq rfl rfl rfl rfl

theorem makes_readInto :
    Makes common w (readKeyword common "into" ts w) (keywordMove "into" ts w.stand) := by
  have htable := makes_readTable common .write ts w
  rw [readKeyword, keywordMove]
  cases hr : readTable common .write ts w with
  | mk w₁ n =>
    rw [hr] at htable
    obtain ⟨hstand, htaken, htables⟩ := htable
    have hstand' : { w₁ with clause := .other }.stand = { w.stand with clause := .other } :=
      congrArg (fun s => { s with clause := .other }) hstand
    have hcolumns := makes_readInsertColumns common (ts.drop n) { w₁ with clause := .other }
    have hn : n = (tableMove .write ts { w.stand with clause := .other }).taken := htaken
    dsimp only
    rw [← hn]
    split
    · refine ⟨hcolumns.stand.trans hstand', ?_, ?_⟩
      · exact congrArg (n + ·) hcolumns.taken
      · have hsame : noted common (none : Option TableUse).toList = [] := rfl
        rw [hcolumns.tables, hsame, append_nil]
        exact htables
    · exact ⟨hstand', hn, htables⟩

theorem makes_readKeyword (keyword : String) :
    Makes common w (readKeyword common keyword ts w) (keywordMove keyword ts w.stand) := by
  have htable := makes_readTable common
  have hstill : ∀ clause, Makes common w ({ w with clause := clause }, 0)
      { stand := { w.stand with clause := clause } } :=
    fun clause => makes_of_tables_eq rfl rfl rfl rfl
  have hnothing : Makes common w (w, 0) { stand := w.stand } := makes_of_tables_eq rfl rfl rfl rfl
  have hkeyword : w.stand.keyword = w.keyword := rfl
  rw [readKeyword.eq_def]
  split
  -- most keywords do nothing but set the clause
  any_goals exact hstill _
  · rw [keywordMove]
    exact (htable _ ts { w with deleting := false, clause := .sources }).of_tables_eq rfl
  · rw [keywordMove]
    exact (htable .read ts { w with clause := .sources }).of_tables_eq rfl
  · have := makes_readInto common ts w
    rwa [readKeyword.eq_def] at this
  · rw [keywordMove, hkeyword]
    split
    · exact hstill .assignment
    · exact htable .write ts w
  · rw [keywordMove]
    split
    · exact (htable .write ts { w with deleting := false }).of_tables_eq rfl
    · exact makes_of_tables_eq rfl rfl rfl rfl
  · rw [keywordMove]
    split
    · exact hnothing
    · exact htable .read ts w
  · rw [keywordMove]
    obtain ⟨hstand, htaken, htables⟩ :=
      htable .write (ts.drop (if ts.head?.any (·.isKeyword ["table"]) then 1 else 0)) w
    exact ⟨hstand, congrArg _ htaken, htables⟩
  · rw [keywordMove, hkeyword, declaringWords]
    split
    · obtain ⟨hstand, htaken, htables⟩ := htable .write (ts.drop (declaringLead ts)) w
      exact ⟨congrArg (fun s => { s with clause := .other }) hstand,
        congrArg (declaringLead ts + ·) htaken, htables⟩
    · exact hnothing
  · rw [keywordMove, hkeyword]
    split
    · exact hstill .grouping
    · exact hnothing
  · rw [keywordMove]
    cases ts with
    | nil => exact hnothing
    | cons t ts =>
      cases hname : t.isName with
      | true =>
        simp only [hname, if_true, head?_cons, Option.any_some]
        refine makes_of_tables_eq ?_ rfl rfl ?_
        · split <;> rfl
        · split <;> rfl
      | false =>
        simp only [hname, head?_cons, Option.any_some]
        exact hnothing
  · rw [keywordMove]
    · exact hnothing
    all_goals assumption

/-- **Each step of the walk makes its move.** -/
theorem makes_step (previous : Option Token) (t : Token) :
    Makes common w (step common previous t ts w) (stepMove t ts w.stand) := by
  rw [step, stepMove]
  split
  · exact makes_of_tables_eq rfl rfl rfl rfl
  split
  · let outside : Walk := { w with clause := w.outer.headD .other, outer := w.outer.tail }
    have halias := makes_readAlias common ts outside none
    change Makes common w
      (if outside.clause == .sources then readAlias none ts outside else (outside, 0))
      ⟨outside.stand, if outside.clause == .sources then aliasLength ts else 0, none⟩
    split
    · exact halias.of_tables_eq rfl
    · exact makes_of_tables_eq rfl rfl rfl rfl
  have hclause : w.stand.clause = w.clause := rfl
  rw [hclause]
  split
  · exact makes_readTable common .read ts w
  cases t.keyword? with
  | some keyword =>
    obtain ⟨hstand, htaken, htables⟩ := makes_readKeyword common ts w keyword
    exact ⟨congrArg (fun s => { s with keyword := keyword }) hstand, htaken, htables⟩
  | none =>
    dsimp only
    split
    · exact makes_readName common ts w previous t
    · exact makes_of_tables_eq rfl rfl rfl rfl

end Parts

/-! ### The whole walk -/

/-- **What a walk notes** are the references it meets, without those to common tables. -/
theorem tables_walk (common : List String) (skip : Nat) (previous : Option Token) (w : Walk)
    (ts : List Token) : (walk common skip previous w ts).tables =
      w.tables ++ noted common (referencesFrom skip w.stand ts) := by
  induction ts generalizing skip previous w with
  | nil => simp [walk, referencesFrom, noted]
  | cons t ts ih =>
    cases skip with
    | succ skip => exact ih skip (some t) w
    | zero =>
      obtain ⟨hstand, htaken, htables⟩ := makes_step common ts w previous t
      rw [walk, referencesFrom, ih, hstand, htaken, htables]
      simp [noted]

theorem tables_walkTokens (ts : List Token) :
    (walkTokens ts).tables = noted (commonTables none ts) (references ts) := by
  rw [walkTokens, tables_walk]
  rfl

theorem referencesFrom_eq_drop (skip : Nat) (s : Stand) (ts : List Token) :
    referencesFrom skip s ts = referencesFrom 0 s (ts.drop skip) := by
  induction ts generalizing skip with
  | nil => rw [drop_nil, referencesFrom, referencesFrom]
  | cons t ts ih =>
    cases skip with
    | zero => rfl
    | succ skip => rw [referencesFrom, drop_succ_cons, ih]

/-- **What holds of the references met**, with what holds at the places where the walk makes a move:
`Inv before s` says that it stands at `s` behind the tokens `before`. -/
theorem forall_references {tokens : List Token} (Inv : List Token → Stand → Prop)
    (P : TableUse → Prop) (hstart : Inv [] {}) (hmove : ∀ before t ts s,
      tokens = before ++ t :: ts → Inv before s →
        Inv (before ++ t :: ts.take (stepMove t ts s).taken) (stepMove t ts s).stand ∧
          ∀ u ∈ (stepMove t ts s).met, P u) : ∀ u ∈ references tokens, P u := by
  have hrest : ∀ n before rest s, rest.length = n →
      tokens = before ++ rest → Inv before s → ∀ u ∈ referencesFrom 0 s rest, P u := by
    intro n
    induction n using Nat.strongRecOn with
    | ind n ih =>
      intro before rest s hn htokens hinv u hu
      cases rest with
      | nil => cases hu
      | cons t ts =>
        obtain ⟨hinv', hmet⟩ := hmove before t ts s htokens hinv
        rw [referencesFrom, referencesFrom_eq_drop, mem_append] at hu
        rcases hu with hu | hu
        · exact hmet u (Option.mem_toList.mp hu)
        · refine ih _ ?_ _ _ _ rfl ?_ hinv' u hu
          · rw [← hn, length_drop, length_cons]
            omega
          · rw [htokens, append_assoc, cons_append, take_append_drop]
  exact hrest _ [] tokens {} rfl rfl hstart

theorem mem_tables_analyze {text : String} {u : TableUse} (h : u ∈ (analyze text).tables) :
    u ∈ references (tokenize text).tokens ∧ u.name ∉ commonTables none (tokenize text).tokens := by
  have hu : u ∈ (walkTokens (tokenize text).tokens).tables := mem_of_mem_distinctOn h
  rw [tables_walkTokens, noted, mem_filter] at hu
  simpa using hu

end AppAtlas.Sql
