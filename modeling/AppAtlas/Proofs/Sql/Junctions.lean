import AppAtlas.Proofs.Sql.Layout
import Mathlib.Algebra.GroupWithZero.Nat

/-!
# SQL texts one behind the other

A text that stands behind another one is read as if it stood alone, only further down, unless the
last lexeme before it takes a part of it in.  At a line end nothing is taken in: of all lexemes only
white space and what is closed by a mark of its own can have a line end as its last character, and
for none of them it matters what follows.

* `Kept`, `Kept.pieces_append`: when the pieces of two texts are the pieces of both.
* `kept_of_getLast?`, `tokens_append_of_lineEnd`: texts that end in a line end.
* `Word`, `PlainWord`: the texts that are one word.
-/

namespace AppAtlas.Sql

open List

/-! ### Pieces one behind the other -/

/-- The line ends that are counted in some pieces. -/
def countedLines (ps : List Piece) : Nat :=
  (ps.map Piece.lines).sum

theorem readPieces_append (line : Nat) (ps qs : List Piece) : readPieces line (ps ++ qs) =
    (readPieces line ps).followedBy (readPieces (line + countedLines ps) qs) := by
  induction ps generalizing line with
  | nil => simp [readPieces, countedLines, Tokens.followedBy]
  | cons p ps ih =>
    rw [cons_append, readPieces, ih, readPieces]
    simp [Tokens.followedBy, countedLines, Nat.add_assoc, Option.or_assoc]

def Token.below (n : Nat) (t : Token) : Token :=
  { t with line := t.line + n }

def Problem.below (n : Nat) (p : Problem) : Problem :=
  { p with line := p.line + n }

def Tokens.below (n : Nat) (t : Tokens) : Tokens where
  tokens := t.tokens.map (·.below n)
  fragments := t.fragments
  broken := t.broken.map (·.below n)

theorem readPieces_below (n line : Nat) (ps : List Piece) :
    readPieces (line + n) ps = (readPieces line ps).below n := by
  induction ps generalizing line with
  | nil => rfl
  | cons p ps ih =>
    rw [readPieces, readPieces, Nat.add_right_comm, ih]
    cases hl : p.lexeme <;>
      simp [Tokens.below, Tokens.followedBy, Piece.read, Piece.token?, Piece.fault?, hl,
        Token.below, Problem.below]

/-- **A text whose lexemes stay what they are** when the character `next` follows. -/
inductive Kept (next : Option Char) : List Char → Prop
  | nil : Kept next []
  | append {source rest : List Char} {l : Lexeme} (h : Spelled source (rest.head?.or next) l)
    (hrest : Kept next rest) : Kept next (source ++ rest)

theorem Spelled.before_end {source : List Char} {next : Option Char} {l : Lexeme}
    (h : Spelled source next l) : Spelled source none l := by
  cases l with
  | token => exact h.of_ends (by simp [Ends])
  | gap =>
    cases h with
    | lineEnd => exact .lineEnd
    | blank hc hne => exact .blank hc hne
    | lineComment hbody _ => exact .lineComment hbody (by simp)
    | blockComment hbody => exact .blockComment hbody
  | broken => cases h <;> constructor <;> assumption

theorem Kept.pieces_append {a b : List Char} (h : Kept b.head? a) :
    pieces (a ++ b) = pieces a ++ pieces b := by
  generalize hnext : b.head? = next at h
  induction h with
  | nil => rfl
  | @append source rest l h _ ih =>
    subst hnext
    have hjoined : Spelled source (rest ++ b).head? l := by rwa [head?_append]
    have halone : Spelled source rest.head? l := by
      cases rest with
      | nil => exact h.before_end
      | cons c cs => exact h
    rw [append_assoc, hjoined.pieces_append, halone.pieces_append, ih, cons_append]

/-! ### Line ends -/

theorem WordOf.getLast?_ne {next : Option Char} {source : List Char} {n : Nat} {literal : Bool}
    (h : WordOf next source n literal) : source.getLast? ≠ some '\n' := by
  intro hlast
  have hblank := h.inked '\n' hlast
  cases hblank

theorem Spelled.of_getLast? {source : List Char} {l : Lexeme} (h : Spelled source none l)
    (hclosed : (Piece.mk source l).fault? = none) (hlast : source.getLast? = some '\n')
    (next : Option Char) : Spelled source next l := by
  have hmem : '\n' ∈ source := mem_of_getLast? hlast
  cases h with
  | lineEnd => exact .lineEnd
  | blank hc hne => exact .blank hc hne
  | lineComment hbody _ => simp [hbody] at hmem
  | blockComment hbody => exact .blockComment hbody
  | string => simp [getLast?_cons] at hlast
  | identifier hmark hbody => exact .identifier hmark hbody
  | placeholder hbody => exact .placeholder hbody
  | word _ hword => exact absurd hlast hword.getLast?_ne
  | question => exact .question
  | cast => exact .cast
  | @named c body _ hc hbody _ =>
    have hall : ∀ d ∈ c :: body, continuesWord d :=
      forall_mem_cons.mpr ⟨continuesWord_of_startsWord hc, hbody⟩
    exact absurd (hall _ (mem_of_ne_of_mem (by decide) hmem)) (by decide)
  | @number c body _ hc hbody _ =>
    have hall : ∀ d ∈ c :: body, continuesNumber d :=
      forall_mem_cons.mpr ⟨continuesNumber_of_isDigit hc, hbody⟩
    exact absurd (hall _ hmem) (by decide)
  | @alone c _ halone =>
    obtain rfl := mem_singleton.mp hmem
    exact absurd halone.notBlank (by decide)
  | openComment | openString | openIdentifier | openPlaceholder | openSubstitution =>
    cases hclosed

theorem kept_of_getLast? {text : List Char} {ps : List Piece} (h : Spells text ps)
    (hclosed : ∀ p ∈ ps, p.fault? = none) (hlast : text.getLast? = some '\n')
    (next : Option Char) : Kept next text := by
  induction h with
  | done => exact .nil
  | @piece source rest l ps h _ ih =>
    obtain ⟨hl, hps⟩ := forall_mem_cons.mp hclosed
    -- only the last lexeme sees what follows the text
    cases rest with
    | nil => exact .append (h.of_getLast? hl (by simpa using hlast) next) .nil
    | cons d ds => exact .append h (ih hps (by simpa using hlast))

/-- **Behind a line end a text is read as if it stood alone**, only further down.  So its tokens,
its substitutions and what is not closed in it are added to what stands before it. -/
theorem tokens_append_of_lineEnd {a : String} (hend : a.toList.getLast? = some '\n')
    (hclosed : (tokenize a).broken = none) (b : String) :
    (tokenize (a ++ b)).tokens = (tokenize a).tokens ++
      (tokenize b).tokens.map (·.below (countedLines (pieces a.toList))) ∧
    (tokenize (a ++ b)).fragments = (tokenize a).fragments + (tokenize b).fragments ∧
    (tokenize (a ++ b)).broken =
      (tokenize b).broken.map (·.below (countedLines (pieces a.toList))) := by
  have hpieces := spells_pieces a.toList
  have hkept := kept_of_getLast? hpieces ((hpieces.broken_scan_eq_none_iff 1).mp hclosed) hend
    b.toList.head?
  have hread : tokenize (a ++ b) =
      (tokenize a).followedBy ((tokenize b).below (countedLines (pieces a.toList))) := by
    rw [tokenize, String.toList_append, (spells_pieces _).scan_eq, hkept.pieces_append,
      readPieces_append, readPieces_below, tokenize, tokenize, hpieces.scan_eq,
      (spells_pieces b.toList).scan_eq]
  rw [hread]
  refine ⟨rfl, rfl, ?_⟩
  rw [Tokens.followedBy, hclosed, Option.none_or]
  rfl

/-- Quotes in comments open nothing, and neither do those of a string that is closed. -/
theorem tokens_append_behind_comment :
    "'it''s\n' -- don't\n/* \"\n */ a$\x7bb\x7d\n".toList.getLast? = some '\n' ∧
    (tokenize "'it''s\n' -- don't\n/* \"\n */ a$\x7bb\x7d\n").broken = none ∧
    (tokenize ("'it''s\n' -- don't\n/* \"\n */ a$\x7bb\x7d\n" ++ "FROM \"b")).tokens =
      (tokenize "'it''s\n' -- don't\n/* \"\n */ a$\x7bb\x7d\n").tokens ++
        [(Token.mk .word "FROM" false 1).below 4] ∧
    (tokenize ("'it''s\n' -- don't\n/* \"\n */ a$\x7bb\x7d\n" ++ "FROM \"b")).broken.isSome := by
  have hend : "'it''s\n' -- don't\n/* \"\n */ a$\x7bb\x7d\n".toList.getLast? = some '\n' := by decide
  have hclosed : (tokenize "'it''s\n' -- don't\n/* \"\n */ a$\x7bb\x7d\n").broken = none := by
    decide +kernel
  obtain ⟨htokens, -, hbroken⟩ := tokens_append_of_lineEnd hend hclosed "FROM \"b"
  refine ⟨hend, hclosed, ?_, ?_⟩
  · rw [htokens]
    exact congrArg _ (show _ = _ by decide +kernel)
  · rw [hbroken]
    decide +kernel

/-! ### Words -/

/-- **A text that is one word.** -/
structure Word where
  text : String
  /-- The number of substitutions inside. -/
  fragments : Nat := 0
  pieces_eq : pieces text.toList =
    [⟨text.toList, .token text.toList.length 0 .word text.toList fragments⟩] := by decide

namespace Word

def token (w : Word) (line : Nat) : Token :=
  ⟨.word, w.text, w.fragments != 0, line⟩

theorem spelled (w : Word) : Spelled w.text.toList none
    (.token w.text.toList.length 0 .word w.text.toList w.fragments) := by
  have hspells := spells_pieces w.text.toList
  rw [w.pieces_eq] at hspells
  generalize w.text.toList = text at hspells ⊢
  generalize hps : [Piece.mk text _] = ps at hspells
  cases hspells with
  | done => cases hps
  | piece hword hrest =>
    obtain ⟨hpiece, rfl⟩ := cons.inj hps
    cases hrest
    rw [append_nil] at hpiece ⊢
    rwa [← (Piece.mk.inj hpiece).2] at hword

end Word

/-- **A word that is no keyword.** -/
structure PlainWord extends Word where
  keyword?_token : (toWord.token 1).keyword? = none := by decide

end AppAtlas.Sql
