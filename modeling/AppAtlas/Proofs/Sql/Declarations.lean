import AppAtlas.Proofs.Sql.NamedKeys
import AppAtlas.Proofs.Sql.Renderings

/-!
# Declared tables are recovered

A script is written for some tables, each with its columns, their data types and what is said of
them, and perhaps with a key.  Names are written in double quotes, so they can be any text: a
keyword, or full of commas and parentheses.  What is read in the script is exactly these tables.

* `ColumnSpec.declaredColumn?_tokens`, `TableSpec.declarations_append`: what is read in a
  column and in a table.
* `declaredTables_script`: the tables that are declared are those that were written.
-/

namespace AppAtlas.Sql

open List

/-! ### Tables and what is written for them -/

/-- What may be said of a column. -/
inductive ColumnRule where
  | notNull
  | unique
  | primaryKey
deriving DecidableEq

def ColumnRule.words : ColumnRule → List Word
  | notNull => [{ text := "NOT" }, { text := "NULL" }]
  | unique => [{ text := "UNIQUE" }]
  | primaryKey => [{ text := "PRIMARY" }, { text := "KEY" }]

/-- **A column to be declared**: its name, its data type, perhaps with integers in parentheses, and
what is said of it, in any order. -/
structure ColumnSpec where
  name : QuotedName
  type : PlainWord
  arguments : Option (List Int)
  rules : List ColumnRule

/-- **A table to be declared**, with at least one column and perhaps with a list of columns as
key. -/
structure TableSpec where
  schema : Option QuotedName
  name : QuotedName
  first : ColumnSpec
  others : List ColumnSpec
  key : Option (List QuotedName)

/-- An element of a declaration. -/
inductive ElementSpec where
  | column (c : ColumnSpec)
  | key (names : List QuotedName)

def TableSpec.elements (t : TableSpec) : List ElementSpec :=
  (t.first :: t.others).map .column ++ t.key.toList.map .key

def argumentsSource : Option (List Int) → List Char
  | none => []
  | some is => '(' :: ([',', ' '].intercalate (is.map fun i => (toString i).toList) ++ [')'])

def ColumnSpec.source (c : ColumnSpec) : List Char :=
  c.name.source ++ ' ' :: (c.type.text.toList ++
    (argumentsSource c.arguments ++ spacedWords (c.rules.flatMap ColumnRule.words)))

def ElementSpec.source : ElementSpec → List Char
  | column c => c.source
  | key names => "PRIMARY KEY (".toList ++
    ([',', ' '].intercalate (names.map QuotedName.source) ++ [')'])

def TableSpec.nameSource (t : TableSpec) : List Char :=
  (t.schema.elim [] fun s => s.source ++ ['.']) ++ t.name.source

/-- What is written behind `CREATE`. -/
def TableSpec.body (t : TableSpec) : List Char :=
  " TABLE ".toList ++ (t.nameSource ++
    (" (".toList ++ ([',', ' '].intercalate (t.elements.map ElementSpec.source) ++ ");".toList)))

def TableSpec.source (t : TableSpec) : List Char :=
  "CREATE".toList ++ t.body ++ ['\n']

/-- **The script that declares some tables.** -/
def script (ts : List TableSpec) : String :=
  String.ofList (ts.flatMap TableSpec.source)

/-! ### The tokens of a declaration -/

def argumentsTokens : Option (List Int) → List Token
  | none => []
  | some is =>
    .ofMark '(' :: ([.ofMark ','].intercalate (is.map integerTokens) ++ [.ofMark ')'])

theorem readAs_arguments (arguments : Option (List Int)) :
    ReadAs (argumentsSource arguments) (argumentsTokens arguments) 0 := by
  cases arguments with
  | none => exact .nil
  | some is =>
    have hlist := readAs_intercalate fun i (_ : i ∈ is) => readAs_integer i
    have hzero : (is.map fun _ => 0).sum = 0 := by simp
    rw [hzero] at hlist
    exact (hlist.append (ReadAs.nil.mark (by decide)) (ends_some.mpr (by decide))).mark (by decide)

theorem ends_arguments (arguments : Option (List Int)) {next : List Char} (h : Ends next.head?) :
    Ends (argumentsSource arguments ++ next).head? := by
  cases arguments with
  | none => exact h
  | some is => exact ends_some.mpr (by decide)

def ColumnSpec.tokens (c : ColumnSpec) : List Token :=
  c.name.token :: c.type.token 1 ::
    (argumentsTokens c.arguments ++ (c.rules.flatMap ColumnRule.words).map (·.token 1))

theorem ColumnSpec.readAs (c : ColumnSpec) : ReadAs c.source c.tokens c.name.lines := by
  have hrules := readAs_spacedWords (c.rules.flatMap ColumnRule.words)
  have hends := ends_spacedWords (c.rules.flatMap ColumnRule.words)
  have htype := c.type.readAs.append ((readAs_arguments c.arguments).append hrules hends)
    (ends_arguments c.arguments hends)
  exact c.name.readAs_append htype.space

def keyElement (names : List QuotedName) : KeyElement :=
  .ofNames ([.ofMark ','].intercalate (names.map fun q => [q.token])) <| by
    intro t ht
    rcases mem_intercalate ht with rfl | ⟨e, he, hte⟩
    · decide
    · obtain ⟨q, -, rfl⟩ := mem_map.mp he
      obtain rfl := mem_singleton.mp hte
      rfl

def ElementSpec.tokens : ElementSpec → List Token
  | column c => c.tokens
  | key names => (keyElement names).tokens

def ElementSpec.lines : ElementSpec → Nat
  | column c => c.name.lines
  | key names => (names.map QuotedName.lines).sum

theorem ElementSpec.readAs (e : ElementSpec) : ReadAs e.source e.tokens e.lines := by
  cases e with
  | column c => exact c.readAs
  | key names =>
    have hlist := (readAs_intercalate fun q (_ : q ∈ names) => q.readAs).append
      (ReadAs.nil.mark (show isMark ')' by decide)) (ends_some.mpr (by decide))
    have hopen := (hlist.mark (show isMark '(' by decide)).space
    have hkey := (Word.readAs { text := "KEY" }).append hopen (ends_some.mpr (by decide))
    have hprimary := (Word.readAs { text := "PRIMARY" }).append hkey.space
      (ends_some.mpr (by decide))
    rw [Nat.zero_add, Nat.zero_add] at hprimary
    exact hprimary

theorem isKeyword_create (line : Nat) :
    (Word.token { text := "CREATE" } line).isKeyword ["create"] :=
  show (Token.ofWord "CREATE").isKeyword ["create"] by decide

def TableSpec.head (t : TableSpec) (line : Nat) : DeclarationHead :=
  .ofName (Word.token { text := "CREATE" } line) (t.schema.getD t.name).token
    (t.schema.toList.map fun _ => (.ofMark '.', t.name.token))
    (isKeyword_create line) rfl <| by
      intro p hp
      obtain ⟨-, -, rfl⟩ := mem_map.mp hp
      exact ⟨rfl, rfl⟩

def TableSpec.tokens (t : TableSpec) : List Token :=
  (t.head 1).tokens ++ .ofMark '(' ::
    ([.ofMark ','].intercalate (t.elements.map ElementSpec.tokens) ++ [.ofMark ')'])

def TableSpec.lines (t : TableSpec) : Nat :=
  t.schema.elim 0 QuotedName.lines + t.name.lines + (t.elements.map ElementSpec.lines).sum

theorem TableSpec.readAs_name (t : TableSpec) {b : List Char} {ts : List Token} {n : Nat}
    (hb : ReadAs b ts n) : ReadAs (t.nameSource ++ b)
      ((t.head 1).first :: ((t.head 1).more.flatMap (fun p => [p.1, p.2]) ++ ts))
      (t.schema.elim 0 QuotedName.lines + t.name.lines + n) := by
  rcases t with ⟨_ | s, name, first, others, key⟩
  · have hname := name.readAs_append hb
    rwa [← Nat.zero_add name.lines] at hname
  · have hname := s.readAs_append ((name.readAs_append hb).mark (show isMark '.' by decide))
    rw [← Nat.add_assoc] at hname
    rw [TableSpec.nameSource, Option.elim_some, append_assoc, append_assoc]
    exact hname

/-- **What is read in a declaration.** -/
theorem TableSpec.readAs (t : TableSpec) : ReadAs t.body (t.tokens ++ [.ofMark ';']) t.lines := by
  have hend : ReadAs ");".toList [.ofMark ')', .ofMark ';'] 0 :=
    (ReadAs.nil.mark (by decide)).mark (by decide)
  have helements := (readAs_intercalate fun e (_ : e ∈ t.elements) => e.readAs).append hend
    (ends_some.mpr (by decide))
  have hname := t.readAs_name (helements.mark (show isMark '(' by decide)).space
  have htable := ((Word.readAs { text := "TABLE" }).append hname.space
    (ends_some.mpr (by decide))).space
  rw [Nat.zero_add, Nat.add_zero] at htable
  have htokens : t.tokens ++ [.ofMark ';'] = .ofWord "TABLE" :: (t.head 1).first ::
      ((t.head 1).more.flatMap (fun p => [p.1, p.2]) ++
        .ofMark '(' :: ([.ofMark ','].intercalate (t.elements.map ElementSpec.tokens) ++
          [.ofMark ')', .ofMark ';'])) := by
    simp [TableSpec.tokens, TableSpec.head, DeclarationHead.ofName, DeclarationHead.tokens]
  rw [htokens]
  exact htable

/-! ### Columns -/

def ColumnSpec.dataType (c : ColumnSpec) : String :=
  c.type.text ++ c.arguments.elim "" fun is => "(" ++ ",".intercalate (is.map toString) ++ ")"

def ColumnSpec.declared (key : List String) (c : ColumnSpec) : DeclaredColumn :=
  let primary := c.rules.contains .primaryKey || key.contains c.name.token.lowerText
  { name := c.name.token.lowerText
    dataType := some c.dataType
    nullable := !c.rules.contains .notNull && !primary
    key := if primary then some .primary
      else if c.rules.contains .unique then some .unique else none }

def ColumnRule.keywords : ColumnRule → List String
  | notNull => ["not", "null"]
  | unique => ["unique"]
  | primaryKey => ["primary", "key"]

theorem keywords_rules (rules : List ColumnRule) :
    ((rules.flatMap ColumnRule.words).map (·.token 1)).filterMap Token.keyword? =
      rules.flatMap ColumnRule.keywords := by
  induction rules with
  | nil => rfl
  | cons r rules ih =>
    rw [flatMap_cons, map_append, filterMap_append, ih, flatMap_cons]
    congr 1
    cases r <;> decide

theorem adjacent_append_of_forall {a b : String} {words : List String} (h : ∀ w ∈ words, w ≠ a)
    (rest : List String) : adjacent a b (words ++ rest) = adjacent a b rest := by
  induction words with
  | nil => rfl
  | cons w words ih =>
    obtain ⟨hw, hwords⟩ := forall_mem_cons.mp h
    rw [← ih hwords, cons_append]
    cases words ++ rest with
    | nil => rfl
    | cons x xs => simp [adjacent, hw]

/-- The two words of a rule stand next to each other where the rule does, and nowhere else. -/
theorem adjacent_keywords {r : ColumnRule} {a b : String} (h : r.keywords = [a, b])
    (rules : List ColumnRule) :
    adjacent a b (rules.flatMap ColumnRule.keywords) = rules.contains r := by
  have hother : ∀ s : ColumnRule, s ≠ r → ∀ w ∈ s.keywords, w ≠ a := by
    have hall : ∀ s r : ColumnRule, s ≠ r → ∀ w ∈ s.keywords, some w ≠ r.keywords.head? := by
      intro s r
      cases s <;> cases r <;> decide
    intro s hs w hw heq
    exact hall s r hs w hw (by rw [h, heq]; rfl)
  induction rules with
  | nil => rfl
  | cons s rules ih =>
    rw [flatMap_cons, contains_cons, ← ih]
    by_cases hs : s = r
    · rw [hs, h]
      simp [adjacent]
    · rw [adjacent_append_of_forall (hother s hs), beq_false_of_ne (Ne.symm hs), Bool.false_or]

theorem contains_unique (rules : List ColumnRule) :
    (rules.flatMap ColumnRule.keywords).contains "unique" = rules.contains .unique := by
  induction rules with
  | nil => rfl
  | cons r rules ih =>
    rw [flatMap_cons, contains_append, contains_cons, ih]
    cases r <;> rfl

theorem join_integerTokens (is : List Int) :
    String.join (([Token.ofMark ','].intercalate (is.map integerTokens)).map (·.text)) =
      ",".intercalate (is.map toString) := by
  apply String.toList_injective
  rw [String.toList_join, String.toList_intercalate, flatMap_map]
  cases is with
  | nil => rfl
  | cons i is =>
    simp only [map_cons, Text.intercalate_cons, flatMap_append, toList_integerTokens,
      flatMap_map, flatMap_assoc, map_map]
    rfl

theorem integerTokens_sorts {i : Int} {t : Token} (h : t ∈ integerTokens i) :
    t.sort = .number ∨ t.sort = .operator := by
  cases i with
  | ofNat n =>
    obtain rfl := mem_singleton.mp h
    exact .inl rfl
  | negSucc n =>
    rcases mem_cons.mp h with rfl | h
    · exact .inr rfl
    · obtain rfl := mem_singleton.mp h
      exact .inl rfl

theorem plain_of_mem_arguments {is : List Int} {t : Token}
    (h : t ∈ [Token.ofMark ','].intercalate (is.map integerTokens)) :
    (¬t.isPunct '(' ∧ ¬t.isPunct ')') ∧ t.keyword? = none := by
  rcases mem_intercalate h with rfl | ⟨e, he, hte⟩
  · decide
  · obtain ⟨i, -, rfl⟩ := mem_map.mp he
    rcases integerTokens_sorts hte with hsort | hsort <;>
      simp [Token.isPunct, Token.keyword?, hsort]

namespace ColumnSpec

variable (c : ColumnSpec)

theorem keyword?_arguments {t : Token} (h : t ∈ argumentsTokens c.arguments) : t.keyword? = none := by
  cases harguments : c.arguments with
  | none =>
    rw [harguments] at h
    cases h
  | some is =>
    rw [harguments, argumentsTokens, mem_cons, mem_append, mem_singleton] at h
    rcases h with rfl | h | rfl
    · rfl
    · exact (plain_of_mem_arguments h).2
    · rfl

theorem dataType?_tokens : dataType? c.tokens.tail = some c.dataType := by
  rw [tokens, tail_cons, dataType]
  cases c.arguments with
  | none =>
    rw [argumentsTokens, nil_append, Option.elim_none, String.append_empty]
    cases c.rules.flatMap ColumnRule.words with
    | nil => rfl
    | cons w ws => rfl
  | some is =>
    have hinside : ((([Token.ofMark ','].intercalate (is.map integerTokens) ++ [Token.ofMark ')']) ++
        (c.rules.flatMap ColumnRule.words).map fun w => w.token 1).takeWhile fun a => !a.isPunct ')') =
          [Token.ofMark ','].intercalate (is.map integerTokens) := by
      rw [append_assoc]
      exact takeWhile_append_cons (fun t ht => by simp [(plain_of_mem_arguments ht).1.2]) rfl _
    rw [argumentsTokens, cons_append, dataType?,
      if_pos (show (Token.ofMark '(').isPunct '(' by decide), hinside]
    dsimp only
    rw [join_integerTokens, Option.elim_some, String.append_assoc, String.append_assoc,
      String.append_assoc]
    rfl

/-- **The column that an element declares**, the key of the table aside. -/
theorem declaredColumn?_tokens : declaredColumn? c.tokens = some (c.declared []) := by
  have hwords : c.tokens.filterMap Token.keyword? = c.rules.flatMap ColumnRule.keywords := by
    have harguments : (argumentsTokens c.arguments).filterMap Token.keyword? = [] :=
      filterMap_eq_nil_iff.mpr fun _ ht => c.keyword?_arguments ht
    rw [tokens, filterMap_cons_none rfl, filterMap_cons_none c.type.keyword?_token,
      filterMap_append, harguments, keywords_rules, nil_append]
  have htype := c.dataType?_tokens
  have hprimary := adjacent_keywords (show ColumnRule.primaryKey.keywords = _ from rfl) c.rules
  have hnull := adjacent_keywords (show ColumnRule.notNull.keywords = _ from rfl) c.rules
  rw [tokens] at hwords htype ⊢
  rw [tail_cons] at htype
  rw [declaredColumn?, if_neg (show ¬c.name.token.isKeyword _ = true from Bool.false_ne_true),
    if_neg (show ¬(!c.name.token.isName) from Bool.false_ne_true), hwords, htype]
  simp only [hprimary, hnull, contains_unique, declared]
  cases c.rules.contains .primaryKey <;> cases c.rules.contains .unique <;> simp

theorem withKey_declared (key : List String) : (c.declared []).withKey key = c.declared key := by
  by_cases hkey : c.name.token.lowerText ∈ key <;> simp [DeclaredColumn.withKey, declared, hkey]

theorem isElement : IsElement c.tokens := by
  have hwords : IsElement ((c.rules.flatMap ColumnRule.words).map (·.token 1)) := by
    induction c.rules.flatMap ColumnRule.words with
    | nil => exact .nil
    | cons w ws ih => exact .cons rfl ih
  refine .cons rfl (.cons rfl ?_)
  cases c.arguments with
  | none => exact hwords
  | some is =>
    rw [argumentsTokens, cons_append, append_assoc]
    exact .parenthesized rfl rfl (fun t ht => (plain_of_mem_arguments ht).1) hwords

end ColumnSpec

theorem ElementSpec.isElement (e : ElementSpec) : IsElement e.tokens := by
  cases e with
  | column c => exact c.isElement
  | key names => exact (keyElement names).isElement

theorem columns_keyElement (names : List QuotedName) :
    (keyElement names).columns = names.map (·.token.lowerText) := by
  rw [KeyElement.columns, keyElement, KeyElement.ofNames, filter_intercalate (by decide),
    flatMap_map, map_flatMap]
  induction names with
  | nil => rfl
  | cons q names ih =>
    rw [flatMap_cons, ih]
    rfl

/-! ### Tables -/

def TableSpec.keyNames (t : TableSpec) : List String :=
  (t.key.getD []).map (·.token.lowerText)

/-- The table that is to be read on a line. -/
def TableSpec.declared (line : Nat) (t : TableSpec) : DeclaredTable where
  schema := t.schema.map (·.token.lowerText)
  name := t.name.token.lowerText
  line := line
  columns := (t.first :: t.others).map (·.declared t.keyNames)

def tablesFrom (line : Nat) : List TableSpec → List DeclaredTable
  | [] => []
  | t :: ts => t.declared line :: tablesFrom (line + t.lines + 1) ts

namespace TableSpec

variable (t : TableSpec)

theorem declaredColumns_elements : declaredColumns (t.elements.map ElementSpec.tokens) =
    (t.first :: t.others).map (·.declared t.keyNames) := by
  have hkey : (t.elements.map ElementSpec.tokens).flatMap primaryNames = t.keyNames := by
    have hcolumn : ∀ c : ColumnSpec, primaryNames c.tokens = [] := fun _ => rfl
    rw [flatMap_map, elements, flatMap_append, flatMap_map, flatMap_map, keyNames]
    simp only [ElementSpec.tokens, hcolumn, KeyElement.primaryNames_tokens, columns_keyElement]
    cases t.key <;> simp
  have hcolumns : (t.elements.map ElementSpec.tokens).filterMap declaredColumn? =
      (t.first :: t.others).map (·.declared []) := by
    rw [filterMap_map, elements, filterMap_append, filterMap_map, filterMap_map]
    simp [Function.comp_def, ElementSpec.tokens, KeyElement.declaredColumn?_tokens,
      ColumnSpec.declaredColumn?_tokens]
  rw [declaredColumns, hkey, hcolumns, map_map]
  exact map_congr_left fun c _ => c.withKey_declared t.keyNames

theorem declared_head (line : Nat) :
    (t.head line).declared ((t.first :: t.others).map (·.declared t.keyNames)) = t.declared line := by
  rcases t with ⟨_ | s, name, first, others, key⟩ <;> rfl

/-- **The table that is read in the tokens of a declaration**, wherever they stand. -/
theorem declarations_append (line : Nat) {ts : List Token} (hts : ts.map (·.onLine 1) = t.tokens)
    (rest : List Token) : declarations 0 (Word.token { text := "CREATE" } line :: (ts ++ rest)) =
      t.declared line :: declarations 0 rest := by
  let others := t.others.map ElementSpec.column ++ t.key.toList.map ElementSpec.key
  have helements : t.elements.map ElementSpec.tokens =
      t.first.tokens :: others.map ElementSpec.tokens := rfl
  have htokens : t.tokens = (t.head line).tokens ++ .ofMark '(' ::
      ((([] : List (List Token × Token)).flatMap fun p => p.1 ++ [p.2]) ++ (t.first.tokens ++
        (((others.map fun e => (.ofMark ',', e.tokens)).flatMap fun p => p.1 :: p.2) ++
          [.ofMark ')']))) := by
    rw [tokens, helements, Text.intercalate_cons, flatMap_map, flatMap_map,
      append_assoc]
    rfl
  have honLine : t.tokens.map (·.onLine 1) = t.tokens := by
    rw [← hts, map_map]
    rfl
  have hafter : ∀ p ∈ others.map fun e => (Token.ofMark ',', e.tokens),
      p.1.isPunct ',' ∧ IsElement p.2 := by
    intro p hp
    obtain ⟨e, -, rfl⟩ := mem_map.mp hp
    exact ⟨rfl, e.isElement⟩
  have hcolumns := t.declaredColumns_elements
  rw [← honLine, htokens] at hts
  rw [helements] at hcolumns
  have hread := (t.head line).declarations_append rfl rfl (by simp) t.first.isElement hafter hts rest
  rw [map_nil, nil_append, map_map] at hread
  refine hread.trans (congrArg (· :: declarations 0 rest) ?_)
  show (t.head line).declared (declaredColumns (t.first.tokens :: others.map ElementSpec.tokens)) = _
  rw [hcolumns, t.declared_head line]

theorem scan_append (line : Nat) (rest : List Char) :
    ∃ ts, ts.map (·.onLine 1) = t.tokens ++ [.ofMark ';'] ∧
      (scan 0 line (t.source ++ rest)).tokens = Word.token { text := "CREATE" } line ::
        (ts ++ (scan 0 (line + t.lines + 1) rest).tokens) ∧
      (scan 0 line (t.source ++ rest)).broken = (scan 0 (line + t.lines + 1) rest).broken := by
  obtain ⟨ps, hps, htokens, hlines, hclosed⟩ := t.readAs ('\n' :: rest) (ends_some.mpr (by decide))
  have hbody : Ends (t.body ++ '\n' :: rest).head? := ends_some.mpr (by decide)
  have hsource : t.source ++ rest = "CREATE".toList ++ (t.body ++ '\n' :: rest) := by
    have hassoc : ∀ a b, a ++ b ++ ['\n'] ++ rest = a ++ (b ++ '\n' :: rest) := by simp
    exact hassoc _ _
  have hscan : scan 0 line (t.body ++ '\n' :: rest) =
      (readPieces line ps).followedBy (scan 0 (line + t.lines + 1) rest) := by
    rw [(spells_pieces _).scan_eq, hps, readPieces_append, ← (spells_pieces ('\n' :: rest)).scan_eq,
      hlines]
    rfl
  have hcreate := ((Word.spelled { text := "CREATE" }).of_ends hbody).scan_append line
  have hopen := (broken_readPieces_eq_none_iff line ps).mpr hclosed
  refine ⟨(readPieces line ps).tokens, (onLine_readPieces line 1 ps).trans htokens, ?_, ?_⟩
  · rw [hsource, hcreate.1]
    show _ :: (scan 0 line (t.body ++ '\n' :: rest)).tokens = _
    rw [hscan]
    rfl
  · rw [hsource, hcreate.2]
    show (scan 0 line (t.body ++ '\n' :: rest)).broken = _
    rw [hscan, Tokens.followedBy, hopen, Option.none_or]

end TableSpec

theorem Closes.of_onLine {p : Token → Prop} {line depth : Nat} {ts : List Token}
    (h : Closes p depth (ts.map (·.onLine line))) : Closes (fun _ => True) depth ts := by
  induction ts generalizing depth with
  | nil =>
    cases h
    exact .nil
  | cons t ts ih =>
    cases h with
    | opening ht h => exact .opening ht (ih h)
    | closing ht h => exact .closing ht (ih h)
    | other hopen hclose _ h => exact .other hopen hclose (fun _ => trivial) (ih h)

theorem closes_intercalate {es : List (List Token)} (h : ∀ e ∈ es, Closes (fun _ => True) 0 e) :
    Closes (fun _ => True) 0 ([.ofMark ','].intercalate es) := by
  cases es with
  | nil => exact .nil
  | cons e es =>
    obtain ⟨he, hes⟩ := forall_mem_cons.mp h
    rw [Text.intercalate_cons]
    refine he.append ?_
    clear he h
    induction es with
    | nil => exact .nil
    | cons e es ih =>
      obtain ⟨he, hes⟩ := forall_mem_cons.mp hes
      exact .other (by decide) (by decide) (fun _ => trivial) (he.append (ih hes))

theorem TableSpec.closes_tokens (t : TableSpec) :
    Closes (fun _ => True) 0 (t.tokens ++ [.ofMark ';']) := by
  have hlist : Closes (fun _ => True) 0
      ([.ofMark ','].intercalate (t.elements.map ElementSpec.tokens)) := by
    refine closes_intercalate fun e he => ?_
    obtain ⟨e, -, rfl⟩ := mem_map.mp he
    exact e.isElement.mono fun _ _ => trivial
  have hend : Closes (fun _ => True) 0 [.ofMark ';'] := .of_forall (by decide)
  rw [TableSpec.tokens, append_assoc, cons_append, append_assoc]
  exact (t.head 1).closes_tokens.append (.opening rfl (hlist.inside rfl hend))

theorem declarations_scan (ts : List TableSpec) (line : Nat) :
    declarations 0 (scan 0 line (ts.flatMap TableSpec.source)).tokens = tablesFrom line ts ∧
      (scan 0 line (ts.flatMap TableSpec.source)).broken = none ∧
      Closes (fun _ => True) 0 (scan 0 line (ts.flatMap TableSpec.source)).tokens := by
  induction ts generalizing line with
  | nil => exact ⟨rfl, rfl, .nil⟩
  | cons t ts ih =>
    obtain ⟨us, hus, htokens, hbroken⟩ := t.scan_append line (ts.flatMap TableSpec.source)
    obtain ⟨hdeclared, hclosed, hcloses⟩ := ih (line + t.lines + 1)
    obtain ⟨vs, ws, rfl, hvs, hws⟩ := map_eq_append_iff.mp hus
    obtain ⟨semicolon, rfl⟩ : ∃ u, ws = [u] :=
      length_eq_one_iff.mp (by simpa using congrArg length hws)
    have hmark : semicolon.onLine 1 = .ofMark ';' := (cons.inj hws).1
    have hsemicolon : semicolon.isKeyword ["create"] = false := by
      rw [← isKeyword_onLine 1, hmark]
      decide
    rw [flatMap_cons]
    refine ⟨?_, hbroken.trans hclosed, ?_⟩
    · rw [htokens, append_assoc, t.declarations_append line hvs, singleton_append,
        declarations, if_neg (by simp [hsemicolon]), hdeclared, tablesFrom]
    · have hhere := t.closes_tokens
      rw [← hus] at hhere
      rw [htokens]
      exact .other (not_isPunct_of_isName rfl _) (not_isPunct_of_isName rfl _) (fun _ => trivial)
        (hhere.of_onLine.append hcloses)

/-- **What is declared is recovered.**  The script for some tables has no fault, and what it
declares are these tables, in this order: their names in lower case, the data types with their
arguments, the columns of the key, whether it is given with the column or with the table, then the
other unique ones, and those that cannot be null. -/
theorem declaredTables_script (ts : List TableSpec) :
    declaredTables (script ts) = (tablesFrom 1 ts, []) := by
  obtain ⟨hdeclared, hclosed, hcloses⟩ := declarations_scan ts 1
  rw [declaredTables, tokenize, script, String.toList_ofList, hdeclared, Tokens.problems, hclosed,
    hcloses.parenthesisFault_eq_none]
  rfl

example : script [⟨some { text := "S" }, { text := "Order" }, ⟨{ text := "a,b" },
    { text := "DECIMAL" }, some [10, -2], [.notNull]⟩, [], some [{ text := "a,b" }]⟩] =
      "CREATE TABLE \"S\".\"Order\" (\"a,b\" DECIMAL(10, -2) NOT NULL, PRIMARY KEY (\"a,b\"));\n" := by
  decide +kernel

end AppAtlas.Sql
