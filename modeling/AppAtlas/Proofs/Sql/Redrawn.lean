import AppAtlas.Proofs.Sql.References

/-!
# What the walk over a statement looks at

The walk that finds the tables and columns of a statement never asks where a token stands, it takes
letters of either case as the same, and of literals, parameters and operators it never asks what
they say.  So it goes the same way over tokens that were redrawn with that in mind, and what it
finds there is what it finds in the statement, with other lines.

* `Redrawing`: a way to redraw tokens that the walk does not notice.
* `step_redrawn`, `walk_redrawn`: one step of the walk, and the whole of it, over redrawn tokens.
* `redrawn_walkTokens`: the uses among redrawn tokens.
-/

namespace AppAtlas.Sql

open List

/-! ### Redrawings -/

/-- Whether the walk may look at the text of a token. -/
def Token.isRead (t : Token) : Bool :=
  match t.sort with
  | .word | .quoted | .dynamic | .punct _ => true
  | .string | .number | .param | .operator => false

namespace Token

variable {t : Token}

theorem isRead_of_isNamePart (h : t.isNamePart) : t.isRead := by
  simp only [isNamePart, isName, Bool.or_eq_true, beq_iff_eq] at h
  rcases h with (h | h) | h <;> simp [isRead, h]

theorem isRead_of_isName (h : t.isName) : t.isRead :=
  isRead_of_isNamePart (by simp [isNamePart, h])

theorem isRead_of_isPlainName (h : t.isPlainName) : t.isRead :=
  isRead_of_isName (by simp_all [isPlainName])

theorem isRead_of_isPunct {mark : Char} (h : t.isPunct mark) : t.isRead := by
  have hsort : t.sort = .punct mark := by simpa [isPunct] using h
  simp [isRead, hsort]

end Token

/-- **A way to redraw tokens** that the walk does not notice: their sorts stay, and so do the texts
it looks at, but for the case of letters. -/
structure Redrawing where
  token : Token → Token
  line : Nat → Nat
  sort_token : ∀ t : Token, (token t).sort = t.sort
  dynamic_token : ∀ t : Token, (token t).dynamic = t.dynamic
  line_token : ∀ t : Token, (token t).line = line t.line
  lowerText_token : ∀ t : Token, t.isRead = true → (token t).lowerText = t.lowerText

attribute [simp] Redrawing.sort_token Redrawing.dynamic_token Redrawing.line_token

def TableUse.relined (line : Nat → Nat) (u : TableUse) : TableUse :=
  { u with line := line u.line }

def NameUse.relined (line : Nat → Nat) (u : NameUse) : NameUse :=
  { u with line := line u.line }

def QualifiedUse.relined (line : Nat → Nat) (u : QualifiedUse) : QualifiedUse :=
  { u with column := u.column.relined line }

def Walk.relined (line : Nat → Nat) (w : Walk) : Walk :=
  { w with
    tables := w.tables.map (TableUse.relined line)
    qualified := w.qualified.map (QualifiedUse.relined line)
    bare := w.bare.map (NameUse.relined line) }

def relined (line : Nat → Nat) (r : Walk × Nat) : Walk × Nat :=
  (r.1.relined line, r.2)

@[simp] theorem Walk.relined_clause (line : Nat → Nat) (w : Walk) :
    (w.relined line).clause = w.clause := rfl

@[simp] theorem Walk.relined_keyword (line : Nat → Nat) (w : Walk) :
    (w.relined line).keyword = w.keyword := rfl

@[simp] theorem Walk.relined_aliases (line : Nat → Nat) (w : Walk) :
    (w.relined line).aliases = w.aliases := rfl

namespace Redrawing

variable (r : Redrawing) (t : Token)

@[simp] theorem isPunct_token (mark : Char) : (r.token t).isPunct mark = t.isPunct mark := by
  simp [Token.isPunct]

@[simp] theorem isName_token : (r.token t).isName = t.isName := by
  simp [Token.isName]

@[simp] theorem isNamePart_token : (r.token t).isNamePart = t.isNamePart := by
  simp [Token.isNamePart]

@[simp] theorem keyword?_token : (r.token t).keyword? = t.keyword? := by
  by_cases hword : t.sort = .word
  · have hread : t.isRead = true := by simp [Token.isRead, hword]
    simp [Token.keyword?, r.lowerText_token t hread]
  · simp [Token.keyword?, hword]

@[simp] theorem isKeyword_token (words : List String) :
    (r.token t).isKeyword words = t.isKeyword words := by
  simp [Token.isKeyword]

@[simp] theorem isPlainName_token : (r.token t).isPlainName = t.isPlainName := by
  simp [Token.isPlainName]

/-! ### Parts of a statement -/

variable {p : Token → Bool} (hp : ∀ t : Token, p (r.token t) = p t)
include hp

theorem any_head? (ts : List Token) : (ts.map r.token).head?.any p = ts.head?.any p := by
  cases ts with
  | nil => rfl
  | cons t ts => exact hp t

theorem length_takeWhile (ts : List Token) :
    ((ts.map r.token).takeWhile p).length = (ts.takeWhile p).length := by
  have hcomp : p ∘ r.token = p := funext hp
  rw [takeWhile_map, length_map, hcomp]

theorem any_map (o : Option Token) : (o.map r.token).any p = o.any p := by
  cases o with
  | none => rfl
  | some t => exact hp t

theorem dottedParts_map (ts : List Token) :
    dottedParts p (ts.map r.token) = (dottedParts p ts).map r.token := by
  fun_induction dottedParts p ts with
  | case1 dot t ts hdot ih => simp_all [dottedParts]
  | case2 dot t ts hdot => simp_all [dottedParts]
  | case3 ts hts =>
    rcases ts with _ | ⟨dot, _ | ⟨t, ts⟩⟩
    · rfl
    · rfl
    · exact absurd rfl (hts dot t ts)

end Redrawing

theorem mem_of_getLast?_dropLast {t : Token} {ts : List Token} (h : ts.dropLast.getLast? = some t) :
    t ∈ ts :=
  dropLast_subset ts (mem_of_getLast? h)

section Redrawn

variable (r : Redrawing) (common : List String) (access : Access) (previous : Option Token)
  (ts : List Token) (w : Walk)

theorem commonTables_redrawn :
    commonTables (previous.map r.token) (ts.map r.token) = commonTables previous ts := by
  induction ts generalizing previous with
  | nil => rfl
  | cons t ts ih =>
    have hrest : commonTables (some (r.token t)) (ts.map r.token) = commonTables (some t) ts :=
      ih (some t)
    rcases ts with _ | ⟨a, _ | ⟨b, ts⟩⟩
    · rfl
    · exact hrest
    · simp only [map_cons] at hrest ⊢
      rw [commonTables, hrest, commonTables]
      simp only [r.any_map (p := fun p => p.isPunct ',' || p.isKeyword ["with", "recursive"])
        (by simp), r.isPlainName_token, r.isKeyword_token, r.isPunct_token]
      split
      · next h =>
        have hread : t.isRead = true := Token.isRead_of_isPlainName (by simp_all)
        rw [r.lowerText_token t hread]
      · rfl

theorem readAlias_redrawn (table : Option String) :
    readAlias table (ts.map r.token) (w.relined r.line) =
      relined r.line (readAlias table ts w) := by
  rw [readAlias, readAlias, r.any_head? (by simp), ← map_drop]
  cases ts.drop (if ts.head?.any (·.isKeyword ["as"]) then 1 else 0) with
  | nil => rfl
  | cons t rest =>
    rw [map_cons]
    simp only [r.any_head? (p := (·.isPunct '.')) (by simp), r.isPlainName_token, r.dynamic_token]
    split
    · next h =>
      have hread : t.isRead = true := Token.isRead_of_isPlainName (by simp_all)
      rw [r.lowerText_token t hread]
      rfl
    · rfl

/-! ### Table references -/

theorem lastPart_redrawn (first : Token) (more : List Token) :
    lastPart (r.token first) (more.map r.token) = r.token (lastPart first more) := by
  rw [lastPart, lastPart]
  exact getLast_map (l := first :: more) (by simp)

theorem getLast?_dropLast_redrawn :
    (ts.map r.token).dropLast.getLast? = ts.dropLast.getLast?.map r.token := by
  rw [← map_dropLast, getLast?_map]

theorem schemaOf_redrawn {first : Token} {more : List Token} (h : ∀ p ∈ first :: more, p.isRead) :
    schemaOf (r.token first) (more.map r.token) = schemaOf first more := by
  rw [schemaOf, schemaOf, ← map_cons, getLast?_dropLast_redrawn]
  cases hlast : (first :: more).dropLast.getLast? with
  | none => rfl
  | some p =>
    have hp := r.lowerText_token p (h p (mem_of_getLast?_dropLast hlast))
    cases hdynamic : p.dynamic <;> simp [Option.filter, hdynamic, hp]

theorem tableName?_redrawn {last : Token} (h : last.isRead) :
    tableName? common (r.token last) = tableName? common last := by
  rw [tableName?, tableName?, r.lowerText_token last h, r.sort_token]

theorem noteTable_redrawn {first : Token} {more : List Token} (h : ∀ p ∈ first :: more, p.isRead) :
    noteTable common access (r.token first) (more.map r.token) (w.relined r.line) =
      (noteTable common access first more w).relined r.line := by
  have hlast : (lastPart first more).isRead := h _ (getLast_mem _)
  simp only [noteTable, lastPart_redrawn, schemaOf_redrawn r h, tableName?_redrawn r common hlast,
    r.lowerText_token _ hlast, r.sort_token, r.dynamic_token, r.line_token]
  generalize lastPart first more = last
  cases hfound : last.sort != .dynamic && !common.contains last.lowerText <;>
    cases hcommon : common.contains last.lowerText <;>
    simp [Walk.relined, TableUse.relined]

theorem tableLead_redrawn : tableLead (ts.map r.token) = tableLead ts :=
  r.length_takeWhile (by simp) ts

theorem readTable_redrawn : readTable common access (ts.map r.token) (w.relined r.line) =
      relined r.line (readTable common access ts w) := by
  have hdrop : (ts.map r.token).drop (tableLead (ts.map r.token)) =
      (ts.drop (tableLead ts)).map r.token := by
    rw [tableLead_redrawn, map_drop]
  cases hts : ts.drop (tableLead ts) with
  | nil =>
    rw [hts, map_nil] at hdrop
    rw [readTable_of_drop_eq_nil hdrop, readTable_of_drop_eq_nil hts, tableLead_redrawn]
    rfl
  | cons first rest =>
    rw [hts, map_cons] at hdrop
    rw [readTable_of_drop_eq_cons hdrop, readTable_of_drop_eq_cons hts, tableLead_redrawn]
    simp only [r.keyword?_token, r.isNamePart_token,
      r.dottedParts_map (p := Token.isNamePart) (by simp)]
    split
    · rfl
    next hfirst =>
    -- the parts of a name are tokens whose text stays
    have hparts : ∀ p ∈ first :: dottedParts Token.isNamePart rest, p.isRead := by
      intro p hp
      rcases mem_cons.mp hp with rfl | hp
      · exact Token.isRead_of_isNamePart (by simp_all)
      · exact Token.isRead_of_isNamePart (accepts_of_mem_dottedParts hp)
    have hlast : (lastPart first (dottedParts Token.isNamePart rest)).isRead :=
      hparts _ (getLast_mem _)
    simp only [length_map, ← map_drop, r.any_head? (p := (·.isPunct '(')) (by simp)]
    split
    · rfl
    · rw [lastPart_redrawn, tableName?_redrawn r common hlast,
        noteTable_redrawn r common access w hparts, readAlias_redrawn]
      rfl

/-! ### Columns -/

theorem namesInside_redrawn (depth : Nat) : namesInside depth (ts.map r.token) =
      ((namesInside depth ts).1.map (NameUse.relined r.line), (namesInside depth ts).2) := by
  induction ts generalizing depth with
  | nil => rfl
  | cons t ts ih =>
    simp only [map_cons, namesInside, ih, r.isPunct_token, r.isName_token, r.dynamic_token,
      r.line_token]
    split
    · rfl
    split
    · split <;> rfl
    split
    · next hname =>
      have hread : t.isRead = true := Token.isRead_of_isName (by simp_all)
      rw [r.lowerText_token t hread]
      rfl
    · rfl

theorem readInsertColumns_redrawn : readInsertColumns (ts.map r.token) (w.relined r.line) =
      relined r.line (readInsertColumns ts w) := by
  have hlast : ((w.relined r.line).tables.getLast?.filter fun t => !t.pattern) =
      (w.tables.getLast?.filter fun t => !t.pattern).map (TableUse.relined r.line) := by
    rw [Walk.relined, getLast?_map]
    cases w.tables.getLast? with
    | none => rfl
    | some t => cases hpattern : t.pattern <;> simp [Option.filter, TableUse.relined, hpattern]
  rw [readInsertColumns, readInsertColumns, namesInside_redrawn, hlast]
  cases w.tables.getLast?.filter fun t => !t.pattern with
  | none => rfl
  | some t =>
    simp [relined, Walk.relined, QualifiedUse.relined, TableUse.relined, Function.comp_def]

theorem readName_redrawn {t : Token} (ht : t.isName) :
    readName common (previous.map r.token) (r.token t) (ts.map r.token) (w.relined r.line) =
      relined r.line (readName common previous t ts w) := by
  have hread : t.isRead := Token.isRead_of_isName ht
  simp only [readName, Walk.relined_clause, Walk.relined_aliases, r.lowerText_token t hread,
    r.line_token, r.any_head? (p := (·.isPunct '.')) (by simp),
    r.any_head? (p := (·.isPunct '(')) (by simp),
    r.any_map (p := fun p => p.isPlainName || p.isPunct ')' || p.sort == .string ||
      p.sort == .number) (by simp),
    r.dottedParts_map (p := fun p => p.isName || p.isPunct '*') (by simp)]
  split
  · generalize hmore : dottedParts (fun p => p.isName || p.isPunct '*') ts = more
    have hparts : ∀ p ∈ t :: more, p.isRead := by
      intro p hp
      rcases mem_cons.mp hp with rfl | hp
      · exact hread
      · rw [← hmore] at hp
        have haccepts := accepts_of_mem_dottedParts hp
        rcases Bool.or_eq_true_iff.mp haccepts with hname | hstar
        · exact Token.isRead_of_isName hname
        · exact Token.isRead_of_isPunct hstar
    simp only [length_map, ← map_drop, r.any_head? (p := (·.isPunct '(')) (by simp),
      ← map_cons, getLast?_dropLast_redrawn, getLast?_map]
    cases hcolumn : more.getLast? with
    | none => rfl
    | some column =>
      cases hqualifier : (t :: more).dropLast.getLast? with
      | none => rfl
      | some qualifier =>
        have hcolumn' := hparts _ (mem_cons_of_mem t (mem_of_getLast? hcolumn))
        have hqualifier' := hparts _ (mem_of_getLast?_dropLast hqualifier)
        simp only [Option.map_some, r.isName_token, r.dynamic_token, r.line_token,
          r.lowerText_token _ hcolumn', r.lowerText_token _ hqualifier']
        split
        · simp [relined, Walk.relined, QualifiedUse.relined, NameUse.relined]
        · rfl
  split
  · rfl
  split
  · rfl
  split
  · rfl
  · simp [relined, Walk.relined, NameUse.relined]

/-! ### The walk -/

theorem readKeyword_redrawn (keyword : String) :
    readKeyword common keyword (ts.map r.token) (w.relined r.line) =
      relined r.line (readKeyword common keyword ts w) := by
  have htable := readTable_redrawn r common
  rw [readKeyword.eq_def, readKeyword.eq_def]
  split
  · rfl
  · exact htable _ ts { w with deleting := false, clause := .sources }
  · exact htable .read ts { w with clause := .sources }
  · -- `into`: the table, then perhaps the columns it is given
    rw [htable]
    obtain ⟨w₁, n⟩ := readTable common .write ts w
    simp only [relined, ← map_drop, r.any_head? (p := (·.isPunct '(')) (by simp)]
    split
    · exact congrArg (fun found => (found.1, n + found.2))
        (readInsertColumns_redrawn r (ts.drop n) { w₁ with clause := .other })
    · rfl
  · rw [Walk.relined_keyword]
    split
    · rfl
    · exact htable .write ts w
  · rw [r.any_head? (by simp)]
    split
    · exact htable .write ts { w with deleting := false }
    · rfl
  · rw [r.any_head? (by simp)]
    split
    · rfl
    · exact htable .read ts w
  · rw [r.any_head? (by simp)]
    simp only [← map_drop, htable]
    rfl
  · rw [Walk.relined_keyword]
    split
    · rw [r.length_takeWhile (by simp)]
      simp only [← map_drop, htable]
      rfl
    · rfl
  · rfl
  · rfl
  · rfl
  · rfl
  · rw [Walk.relined_keyword]
    split <;> rfl
  · rfl
  · rfl
  · rfl
  · rfl
  · rfl
  · rfl
  · rfl
  · rfl
  · cases ts with
    | nil => rfl
    | cons t ts =>
      cases hname : t.isName with
      | true =>
        have hread := Token.isRead_of_isName hname
        simp only [map_cons, r.isName_token, hname, if_true, Walk.relined_clause,
          r.lowerText_token t hread]
        split <;> rfl
      | false =>
        simp only [map_cons, r.isName_token, hname]
        rfl
  · rfl

/-- **One step of the walk over redrawn tokens.** -/
theorem step_redrawn (t : Token) :
    step common (previous.map r.token) (r.token t) (ts.map r.token) (w.relined r.line) =
      relined r.line (step common previous t ts w) := by
  rw [step, step]
  simp only [r.isPunct_token, r.keyword?_token, Walk.relined_clause]
  split
  · rfl
  split
  · -- the clause outside the parenthesis is taken up again
    let outside : Walk := { w with clause := w.outer.headD .other, outer := w.outer.tail }
    change (if (outside.relined r.line).clause == .sources then
        readAlias none (ts.map r.token) (outside.relined r.line) else (outside.relined r.line, 0)) =
      relined r.line (if outside.clause == .sources then readAlias none ts outside else (outside, 0))
    rw [Walk.relined_clause, readAlias_redrawn]
    split <;> rfl
  split
  · exact readTable_redrawn r common .read ts w
  cases t.keyword? with
  | some keyword =>
    dsimp only
    rw [readKeyword_redrawn]
    rfl
  | none =>
    dsimp only
    rw [r.isName_token, r.dynamic_token]
    split
    · next hname => exact readName_redrawn r common previous ts w (by simp_all)
    · rfl

/-- **The whole walk over redrawn tokens.** -/
theorem walk_redrawn (skip : Nat) :
    walk common skip (previous.map r.token) (w.relined r.line) (ts.map r.token) =
      (walk common skip previous w ts).relined r.line := by
  induction ts generalizing skip previous w with
  | nil => rfl
  | cons t ts ih =>
    cases skip with
    | succ skip => exact ih (some t) w skip
    | zero =>
      rw [map_cons, walk, step_redrawn]
      exact ih (some t) (step common previous t ts w).1 (step common previous t ts w).2

theorem redrawn_walkTokens : walkTokens (ts.map r.token) = (walkTokens ts).relined r.line := by
  have hcommon : commonTables none (ts.map r.token) = commonTables none ts :=
    commonTables_redrawn r none ts
  rw [walkTokens, walkTokens, hcommon]
  exact walk_redrawn r _ none ts {} 0

end Redrawn

end AppAtlas.Sql
