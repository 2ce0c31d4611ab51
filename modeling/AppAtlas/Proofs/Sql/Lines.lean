import Mathlib.Algebra.GroupWithZero.Nat
import AppAtlas.Proofs.Sql.Lexemes

/-!
# The lines of tokens

The reader carries a line number along and adds to it what it finds in each lexeme.  In bind
parameters and in words it does not look for line ends, so those inside `#{…}` and `${…}` are left
out, and each token behind them has a line number that is too small by their number.  This is the
only thing left out: a token's line is right exactly if no placeholder before it spans lines.

* `Spells.exists_before`: what holds of the token at a place, by induction on the pieces.
* `token_line_right_iff_placeholders_unbroken`: the line of each token of each text.
-/

namespace AppAtlas.Sql

open List Text

variable {source text : List Char} {next : Option Char} {size lines : Nat}

def Token.WrittenAs (t : Token) (source : List Char) : Prop :=
  match t.sort with
  | .string => source = '\'' :: (t.text.toList ++ ['\''])
  | .quoted => ∃ mark ∈ identifierMarks, source = mark :: (t.text.toList ++ [closing mark])
  | _ => source = t.text.toList

/-- The line ends in a token that are not counted: those in bind parameters and in words. -/
def Token.uncounted (t : Token) : Nat :=
  match t.sort with
  | .param | .word | .dynamic => newlines t.text.toList
  | _ => 0

/-! ### One piece -/

theorem newlines_of_not_mem {cs : List Char} (h : '\n' ∉ cs) : newlines cs = 0 := by
  rw [newlines, countP_eq_zero]
  rintro c hc hline
  rw [beq_iff_eq.mp hline] at hc
  exact h hc

theorem newlines_of_forall {p : Char → Bool} (hp : p '\n' = false) {cs : List Char}
    (h : ∀ c ∈ cs, p c) : newlines cs = 0 := by
  refine newlines_of_not_mem fun hline => ?_
  rw [h _ hline] at hp
  cases hp

/-- **The line ends of a token are those counted and those left out.** -/
theorem Spelled.newlines_token {fragments : Nat} {sort : TokenSort}
    (h : Spelled source next (.token size lines sort text fragments)) (line : Nat) :
    newlines source =
      lines + (Token.mk sort (String.ofList text) (fragments != 0) line).uncounted := by
  cases h with
  | string => simp [Token.uncounted, newlines]
  | identifier hmark _ =>
    simp only [identifierMarks, mem_cons, not_mem_nil, or_false] at hmark
    rcases hmark with rfl | rfl | rfl <;> simp [Token.uncounted, newlines, closing]
  | placeholder => simp [Token.uncounted]
  | @word _ _ _ literal => cases literal <;> simp [Token.uncounted]
  | question => simp [Token.uncounted]
  | cast => rfl
  | named => simp [Token.uncounted]
  | @number c body _ hc hbody _ =>
    have hnumber : ∀ d ∈ c :: body, continuesNumber d :=
      forall_mem_cons.mpr ⟨continuesNumber_of_isDigit hc, hbody⟩
    simp [Token.uncounted, newlines_of_forall (by decide) hnumber]
  | @alone c _ halone =>
    have hline : newlines [c] = 0 := newlines_of_not_mem fun hline => by
      obtain rfl := mem_singleton.mp hline
      exact absurd halone.notBlank (by decide)
    rw [hline]
    split <;> rfl

theorem Spelled.newlines_gap (h : Spelled source next (.gap size lines)) :
    newlines source = lines := by
  cases h with
  | lineEnd => rfl
  | blank _ hne => exact newlines_of_not_mem (by simpa using Ne.symm hne)
  | lineComment hbody _ => exact newlines_of_not_mem (by simpa using hbody)
  | blockComment => simp [newlines]

theorem Spelled.writtenAs {fragments : Nat} {sort : TokenSort}
    (h : Spelled source next (.token size lines sort text fragments)) (line : Nat) :
    (Token.mk sort (String.ofList text) (fragments != 0) line).WrittenAs source := by
  cases h with
  | string => simp [Token.WrittenAs]
  | @identifier mark body _ hmark _ => exact ⟨mark, hmark, by simp⟩
  | @word _ _ _ literal => cases literal <;> simp [Token.WrittenAs]
  | @alone c _ _ =>
    split <;> simp [Token.WrittenAs]
  | _ => simp [Token.WrittenAs]

/-! ### All pieces -/

/-- **The token at a place.**  The text before it holds the line ends that its line number counts
and those that the tokens before it left out. -/
theorem Spells.exists_before {ps : List Piece} (h : Spells text ps) {offset line : Nat}
    {earlier later : List Placed} {p : Placed}
    (hp : placedFrom offset line ps = earlier ++ p :: later) :
    ∃ before after source, text = before ++ after ∧
      p.offset = offset + before.length ∧ p.token.WrittenAs source ∧ source <+: after ∧
      p.token.line + (earlier.map (·.token.uncounted)).sum = line + newlines before := by
  induction h generalizing offset line earlier with
  | done => simp [placedFrom] at hp
  | @piece source rest l ps h hrest ih =>
    cases l with
    | broken fault n =>
      -- reading stops here, so there is no token at all
      obtain rfl := h.rest_eq_nil_of_broken
      obtain rfl : [] = ps := hrest.pieces_eq
      simp [placedFrom, Piece.token?] at hp
    | gap size lines =>
      have hp' : placedFrom (offset + source.length) (line + lines) ps = earlier ++ p :: later := hp
      obtain ⟨before, after, written, rfl, hoffset, hwritten, hprefix, hline⟩ := ih hp'
      refine ⟨source ++ before, after, written, (append_assoc _ _ _).symm, ?_, hwritten,
        hprefix, ?_⟩
      · rw [hoffset, length_append, Nat.add_assoc]
      · rw [hline, newlines_append, h.newlines_gap, Nat.add_assoc]
    | token size lines sort text fragments =>
      have hp' : ⟨offset, sort, String.ofList text, fragments != 0, line⟩ ::
          placedFrom (offset + source.length) (line + lines) ps =
        earlier ++ p :: later := hp
      cases earlier with
      | nil =>
        obtain ⟨rfl, -⟩ := cons.inj hp'
        exact ⟨[], source ++ rest, source, rfl, rfl, h.writtenAs line, prefix_append _ _, rfl⟩
      | cons q earlier =>
        -- the line ends of this token are those added to the line and those it leaves out
        obtain ⟨rfl, hlater⟩ := cons.inj hp'
        obtain ⟨before, after, written, rfl, hoffset, hwritten, hprefix, hline⟩ := ih hlater
        refine ⟨source ++ before, after, written, (append_assoc _ _ _).symm, ?_, hwritten,
          hprefix, ?_⟩
        · rw [hoffset, length_append, Nat.add_assoc]
        · simp only [map_cons, sum_cons, newlines_append, h.newlines_token line]
          omega

/-- No token has a line above the number of lines of the text. -/
theorem line_le_of_mem_tokenize {text : String} {t : Token} (h : t ∈ (tokenize text).tokens) :
    t.line ≤ newlines text.toList + 1 := by
  rw [tokens_tokenize] at h
  obtain ⟨p, hp, rfl⟩ := mem_map.mp h
  obtain ⟨earlier, later, hp⟩ := append_of_mem hp
  obtain ⟨before, after, -, htext, -, -, -, hline⟩ := (spells_pieces text.toList).exists_before hp
  rw [htext, newlines_append]
  omega

/-- **The line of a token.**  Each token of a text, at the place where it is written, has the line
that is one more than the number of line ends before it, less those inside bind parameters and words
before it.  So its line is right exactly if there are none of these. -/
theorem token_line_right_iff_placeholders_unbroken (text : String) {earlier later : List Placed}
    {p : Placed} (hp : placed text.toList = earlier ++ p :: later) :
    (tokenize text).tokens = (placed text.toList).map (·.token) ∧
    (∃ source : List Char, p.token.WrittenAs source ∧ source <+: text.toList.drop p.offset) ∧
    p.token.line + (earlier.map (·.token.uncounted)).sum =
      1 + Text.newlines (text.toList.take p.offset) ∧
    (p.token.line = 1 + Text.newlines (text.toList.take p.offset) ↔
      ∀ q ∈ earlier, q.token.uncounted = 0) := by
  obtain ⟨before, after, source, htext, hoffset, hwritten, hprefix, hline⟩ :=
    (spells_pieces text.toList).exists_before hp
  have hbefore : text.toList.take p.offset = before := by
    rw [htext, hoffset, Nat.zero_add, List.take_left]
  have hafter : text.toList.drop p.offset = after := by
    rw [htext, hoffset, Nat.zero_add, List.drop_left]
  refine ⟨tokens_tokenize text, ⟨source, hwritten, hafter ▸ hprefix⟩, hbefore ▸ hline, ?_⟩
  have hsum : (earlier.map (·.token.uncounted)).sum = 0 ↔ ∀ q ∈ earlier, q.token.uncounted = 0 := by
    rw [List.sum_eq_zero_iff_forall_eq_nat]
    simp
  rw [hbefore, ← hsum]
  omega

/-- Behind a comment and a string that span lines the line is right. -/
theorem line_right_behind_spanning_string :
    placed "/* a\n */ 'b\nc' d".toList =
      [⟨9, .string, "b\nc", false, 2⟩] ++ ⟨15, .word, "d", false, 3⟩ :: [] ∧
    3 = 1 + Text.newlines ("/* a\n */ 'b\nc' d".toList.take 15) := by
  have hp : placed "/* a\n */ 'b\nc' d".toList =
      [⟨9, .string, "b\nc", false, 2⟩] ++ ⟨15, .word, "d", false, 3⟩ :: [] := by decide
  exact ⟨hp, (token_line_right_iff_placeholders_unbroken "/* a\n */ 'b\nc' d" hp).2.2.2.mpr
    (by decide)⟩

/-- **A placeholder that spans lines** makes the lines behind it too small: the second token of this
text is on line two, and its number is one. -/
theorem line_too_small_behind_spanning_placeholder :
    ∃ p ∈ placed "#\x7ba\n\x7d x".toList, p.token ∈ (tokenize "#\x7ba\n\x7d x").tokens ∧
      p.token.line = 1 ∧ 1 + Text.newlines ("#\x7ba\n\x7d x".toList.take p.offset) = 2 :=
  ⟨⟨6, .word, "x", false, 1⟩, by decide, by decide, rfl, by decide⟩

end AppAtlas.Sql
