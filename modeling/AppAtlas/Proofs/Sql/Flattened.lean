import AppAtlas.Proofs.Sql.Layout
import AppAtlas.Proofs.Sql.Outline
import AppAtlas.Proofs.Text.Cuts
import AppAtlas.Sql.Template

/-!
# Flattened templates

A template without tags and references is flattened by making each run of white space one space.
That puts the statement on one line, so a line comment in it takes in all that follows, and it
changes the white space inside quoted names.  Apart from that the tokens stay.

* `joinWith_words`: a text's words with single spaces between them.
* `tokens_flatten`: the tokens of a flattened template.
-/

namespace AppAtlas.Text

theorem trimEnd_cons (c : Char) (cs : List Char) :
    trimEnd (c :: cs) = if isBlank c ∧ trimEnd cs = [] then [] else c :: trimEnd cs := by
  rw [trimEnd, dropEnd, List.reverse_cons, List.dropWhile_append]
  by_cases hcs : cs.reverse.dropWhile isBlank = []
  · cases hc : isBlank c <;> simp [trimEnd, dropEnd, hcs, hc]
  · simp [trimEnd, dropEnd, hcs]

end AppAtlas.Text

namespace AppAtlas.Sql

open List Text

variable {cs text : List Char} {t : Token}

/-! ### Words with single spaces -/

def spread (words : List (List Char)) : List Char :=
  words.flatMap ([' '] ++ ·)

theorem trimEnd_space_joinWith {words : List (List Char)} (h : ∀ w ∈ words, w ≠ [])
    (hcs : trimEnd cs = joinWith [' '] words) : trimEnd (' ' :: cs) = spread words := by
  rw [trimEnd_cons, hcs]
  cases words with
  | nil => rfl
  | cons w ws =>
    have hw : joinWith [' '] (w :: ws) ≠ [] := by
      simp [joinWith_cons, h w mem_cons_self]
    rw [if_neg (fun hempty => hw hempty.2), joinWith_cons]
    rfl

theorem trimEnd_squeeze (cs : List Char) {s : List Char} {ss : List (List Char)}
    (h : segments isBlank cs = s :: ss) :
    trimEnd (squeeze true cs) = joinWith [' '] ((s :: ss).filter (!·.isEmpty)) ∧
      trimEnd (squeeze false cs) = s ++ spread (ss.filter (!·.isEmpty)) := by
  induction cs generalizing s ss with
  | nil =>
    obtain ⟨rfl, rfl⟩ : [] = s ∧ [] = ss := by simpa [segments] using h
    exact ⟨rfl, rfl⟩
  | cons c cs ih =>
    obtain ⟨r, rs, hcs⟩ := exists_cons_of_ne_nil (segments_ne_nil isBlank cs)
    obtain ⟨htrue, hfalse⟩ := ih hcs
    rw [segments, hcs] at h
    cases hc : isBlank c with
    | true =>
      obtain ⟨rfl, rfl⟩ : [] = s ∧ r :: rs = ss := by simpa [hc] using h
      have hfilled : ∀ w ∈ (r :: rs).filter (!·.isEmpty), w ≠ [] := by simp
      rw [squeeze, squeeze, if_pos hc, if_pos hc]
      exact ⟨htrue, trimEnd_space_joinWith hfilled htrue⟩
    | false =>
      obtain ⟨rfl, rfl⟩ : c :: r = s ∧ rs = ss := by simpa [hc] using h
      rw [squeeze_cons hc, squeeze_cons hc, trimEnd_cons, if_neg (by simp [hc]), hfalse,
        filter_cons_of_pos (by simp), joinWith_cons]
      exact ⟨rfl, rfl⟩

/-- **The words of a text with single spaces between them** are the squeezed text. -/
theorem joinWith_words (cs : List Char) :
    joinWith [' '] (words cs) = trimEnd (squeeze true cs) := by
  obtain ⟨s, ss, hcs⟩ := exists_cons_of_ne_nil (segments_ne_nil isBlank cs)
  rw [(trimEnd_squeeze cs hcs).1, words, filledSegments, hcs]

/-! ### Flattening -/

theorem cutWhere_eq_none {mark : Char} (h : mark ∉ cs) : cutWhere (· == mark) cs = none := by
  induction cs with
  | nil => rfl
  | cons c cs ih =>
    rw [mem_cons, not_or] at h
    simp [cutWhere, Ne.symm h.1, ih h.2]

theorem flatten_of_plain {body : List Char} (hopen : '<' ∉ body) (hamp : '&' ∉ body)
    (fragments : Template.Fragments) : Template.flatten fragments body =
      { text := joinWith [' '] (words body) } := by
  rw [Template.flatten, Template.maxDepth, Template.runNested, Template.run, cutWhere_eq_none hopen,
    Markup.decodeEntities_of_not_mem hamp]
  rfl

/-- The tokens of a text before its first line comment, all on one line and the white space inside
them squeezed. -/
def flatTokens (text : List Char) : List Token :=
  (((pieces text).takeWhile (!·.isLineComment)).filterMap (·.token? 1)).map Token.squeezed

/-- **The tokens of a flattened template** are those before its first line comment. -/
theorem tokens_flatten {body : List Char} (hopen : '<' ∉ body) (hamp : '&' ∉ body)
    (fragments : Template.Fragments) :
    (tokenize (String.ofList (Template.flatten fragments body).text)).tokens = flatTokens body := by
  rw [flatten_of_plain hopen hamp, tokenize, String.toList_ofList, joinWith_words, tokens_trimEnd,
    tokens_squeeze_true, (spells_pieces body).tokens_squeeze]
  rfl

/-! ### Tables -/

def CommentsLast (text : List Char) : Prop :=
  ∀ p ∈ (pieces text).dropWhile (!·.isLineComment), p.token? 1 = none

instance (text : List Char) : Decidable (CommentsLast text) :=
  inferInstanceAs (Decidable (∀ p ∈ (pieces text).dropWhile (!·.isLineComment), p.token? 1 = none))

/-- Inside names there is no white space but single spaces. -/
def NamesSqueezed (text : List Char) : Prop :=
  ∀ t ∈ (scan 0 1 text).tokens, t.isNamePart = true → t.squeezed = t

instance (text : List Char) : Decidable (NamesSqueezed text) :=
  inferInstanceAs (Decidable (∀ t ∈ (scan 0 1 text).tokens, t.isNamePart = true → t.squeezed = t))

theorem Spells.spelled_of_mem_tokens {ps : List Piece} (h : Spells text ps) {line : Nat}
    (ht : t ∈ (scan 0 line text).tokens) : ∃ source next size lines n cs,
      Spelled source next (.token size lines t.sort cs n) ∧ t.text = String.ofList cs := by
  induction h generalizing line with
  | done => cases ht
  | @piece source rest l ps h _ ih =>
    rw [(h.scan_append line).1] at ht
    rcases mem_append.mp ht with ht | ht
    · cases l with
      | token size lines sort cs n =>
        obtain rfl : t = ⟨sort, String.ofList cs, n != 0, line⟩ := by simpa [Piece.token?] using ht
        exact ⟨source, _, size, lines, n, cs, h, rfl⟩
      | gap => cases ht
      | broken => cases ht
    · exact ih ht

theorem Spelled.squeeze_of_punct {source : List Char} {next : Option Char} {size lines n : Nat}
    {mark : Char} (h : Spelled source next (.token size lines (.punct mark) cs n)) :
    squeeze false cs = cs := by
  generalize hsort : TokenSort.punct mark = sort at h
  cases h with
  | alone halone => exact squeeze_cons halone.notBlank false []
  | @word _ _ _ literal => cases literal <;> cases hsort
  | _ => cases hsort

theorem outline_squeezed (h : t.isRead → t.squeezed = t) :
    (t.onLine 1).squeezed.outline = t.outline := by
  have hsame : (t.onLine 1).squeezed.isRead = t.isRead := rfl
  cases hread : t.isRead with
  | true =>
    have hsqueezed : t.squeezed.text = t.text := congrArg Token.text (h hread)
    have htext : (t.onLine 1).squeezed.text = t.text := hsqueezed
    rw [Token.outline, Token.outline, hsame, htext]
    rfl
  | false =>
    rw [Token.outline, Token.outline, hsame, hread]
    rfl

theorem NamesSqueezed.squeezed_of_isRead (h : NamesSqueezed text) (ht : t ∈ (scan 0 1 text).tokens)
    (hread : t.isRead) : t.squeezed = t := by
  obtain ⟨source, next, size, lines, n, cs, hspelled, htext⟩ :=
    (spells_pieces text).spelled_of_mem_tokens ht
  cases hsort : t.sort with
  | word | quoted | dynamic => exact h t ht (by simp [Token.isNamePart, Token.isName, hsort])
  | punct mark =>
    rw [hsort] at hspelled
    rw [Token.squeezed, htext, onString, String.toList_ofList, hspelled.squeeze_of_punct,
      ← htext]
  | string | number | param | operator => simp [Token.isRead, hsort] at hread

/-- Before the end of what comments leave of it, a text keeps its outline when it is flattened. -/
theorem outline_flatTokens (hcomments : CommentsLast text) (hnames : NamesSqueezed text) :
    (flatTokens text).map Token.outline = (scan 0 1 text).tokens.map Token.outline := by
  have hbehind : ((pieces text).dropWhile (!·.isLineComment)).filterMap (·.token? 1) = [] :=
    filterMap_eq_nil_iff.mpr hcomments
  have hall : ((pieces text).takeWhile (!·.isLineComment)).filterMap (·.token? 1) =
      (pieces text).filterMap (·.token? 1) := by
    conv_rhs => rw [← takeWhile_append_dropWhile (p := (!·.isLineComment)) (l := pieces text),
      filterMap_append, hbehind, append_nil]
  rw [flatTokens, hall, ← (spells_pieces text).onLine_tokens 1 1, map_map, map_map]
  refine map_congr_left fun t ht => ?_
  exact outline_squeezed (hnames.squeezed_of_isRead ht)

/-- **Flattening keeps the tables** of a template without tags and references, if no token stands
behind a line comment and white space inside names is single spaces.  In any case nothing in the
template counts as varying or as wrong, and its tokens are those before the first line comment. -/
theorem flattened_tables_eq_of_comments_last (fragments : Template.Fragments) {body : List Char}
    (hopen : '<' ∉ body) (hamp : '&' ∉ body) :
    (Template.flatten fragments body).variation = 0 ∧ (Template.flatten fragments body).faults = [] ∧
      (tokenize (String.ofList (Template.flatten fragments body).text)).tokens = flatTokens body ∧
      (CommentsLast body → NamesSqueezed body →
        (analyze (String.ofList (Template.flatten fragments body).text)).tables.map TableUse.outline =
          (analyze (String.ofList body)).tables.map TableUse.outline) := by
  have hflat := flatten_of_plain hopen hamp fragments
  have htokens := tokens_flatten hopen hamp fragments
  refine ⟨by rw [hflat], by rw [hflat], htokens, ?_⟩
  intro hcomments hnames
  -- the walk looks at outlines only, and those of the tokens are the same
  apply tables_eq_of_outline_eq
  rw [htokens, outline_flatTokens hcomments hnames, tokenize, String.toList_ofList]

/-- A statement in several lines, with comments, a string and a quoted name. -/
def orderBody : List Char :=
  "insert into  shop.orders /* new\n ones */ (id, \"unit price\")\n".toList ++
    "  select id, 'a  b'\n  from\t$\x7bp\x7d_items -- all".toList

theorem orderBody_flattened_with_its_tables :
    '<' ∉ orderBody ∧ '&' ∉ orderBody ∧ CommentsLast orderBody ∧ NamesSqueezed orderBody ∧
      (analyze (String.ofList (Template.flatten ∅ orderBody).text)).tables.map TableUse.outline =
        [⟨"orders", some "shop", .write, false, 0⟩, ⟨"$\x7bp\x7d_items", none, .read, true, 0⟩] := by
  have hopen : '<' ∉ orderBody := by decide +kernel
  have hamp : '&' ∉ orderBody := by decide +kernel
  have hcomments : CommentsLast orderBody := by decide +kernel
  have hnames : NamesSqueezed orderBody := by decide +kernel
  refine ⟨hopen, hamp, hcomments, hnames, ?_⟩
  rw [(flattened_tables_eq_of_comments_last ∅ hopen hamp).2.2.2 hcomments hnames]
  decide +kernel

def commentedBody : List Char := "delete -- old\nfrom t".toList

/-- A line comment hides the table that the next line names. -/
theorem table_hidden_by_flattened_comment :
    (analyze (String.ofList commentedBody)).tables = [⟨"t", none, .write, false, 2⟩] ∧
      (Template.flatten ∅ commentedBody).text = "delete -- old from t".toList ∧
      (analyze (String.ofList (Template.flatten ∅ commentedBody).text)).tables = [] := by
  decide +kernel

end AppAtlas.Sql
