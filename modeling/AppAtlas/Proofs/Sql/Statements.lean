import AppAtlas.Proofs.Sql.Boundaries
import AppAtlas.Proofs.Sql.Comments
import Mathlib.Data.List.Forall2
import Mathlib.Data.List.ReduceOption

/-!
# The statements of a script

Each part of a script between two cuts gives a statement if the part shows anything without its
comments.  The statement's text starts at the first token of the part and has its tokens.  The test
for comments is not that of the tokenizer, though, so a part with tokens may give no statement if a
block comment before them does not end plainly, and a part without tokens may give one if something
in it is not closed.

* `dropTrivia_eq_drop`, `onLine_tokens_dropTrivia`: where the text of a statement starts.
* `shows_of_plainLead`, `not_shows_of_isTrivia`: which parts give a statement.
-/

namespace AppAtlas.Sql

open List Text

/-! ### What opens no comment -/

/-- A text that starts with something else than white space and comments. -/
def Opens (text : List Char) : Prop :=
  ∃ (c : Char) (cs : List Char), text = c :: cs ∧ isBlank c = false ∧
    (c = '-' → cs.head? ≠ some '-') ∧ (c = '/' → cs.head? ≠ some '*')

/-- Whether a lexeme is a comment or white space, closed or not. -/
def Lexeme.isTrivia : Lexeme → Bool
  | .gap _ _ => true
  | .token _ _ _ _ _ => false
  | .broken fault _ => fault == .openComment

theorem isTrivia_of_isBlank {c : Char} (h : isBlank c) (cs : List Char) :
    (lexeme c cs).isTrivia := by
  by_cases hline : c = '\n'
  · subst hline
    rfl
  · rw [lexeme, if_neg hline, if_pos h]
    rfl

theorem isTrivia_comment (cs : List Char) : (lexeme '/' ('*' :: cs)).isTrivia := by
  cases hsize : commentSize? cs with
  | none => rw [lexeme_openComment hsize]; rfl
  | some n =>
    obtain ⟨body, rest, rfl, -, hbody⟩ := exists_of_commentSize? hsize
    rw [lexeme_blockComment hbody]
    rfl

theorem Spelled.opens {source rest : List Char} {l : Lexeme} (h : Spelled source rest.head? l)
    (hl : l.isTrivia = false) : Opens (source ++ rest) := by
  obtain ⟨c, cs, heq, rfl⟩ := h.lexeme_eq
  refine ⟨c, cs, heq, ?_, ?_, ?_⟩
  · rw [← Bool.not_eq_true]
    intro hblank
    rw [isTrivia_of_isBlank hblank] at hl
    cases hl
  · rintro rfl hhead
    obtain ⟨ds, rfl⟩ := head?_eq_some_iff.mp hhead
    have htrivia : (lexeme '-' ('-' :: ds)).isTrivia := rfl
    rw [htrivia] at hl
    cases hl
  · rintro rfl hhead
    obtain ⟨ds, rfl⟩ := head?_eq_some_iff.mp hhead
    rw [isTrivia_comment] at hl
    cases hl

theorem Spelled.head?_append {source : List Char} {next : Option Char} {l : Lexeme}
    (h : Spelled source next l) (rest : List Char) : (source ++ rest).head? = source.head? := by
  obtain ⟨c, cs, rfl⟩ := h.exists_cons
  rfl

section

variable {text : List Char} {ps : List Piece} (h : Spells text ps)

include h

theorem Spells.head?_eq : text.head? = ps.head?.bind (·.source.head?) := by
  cases h with
  | done => rfl
  | piece h _ => exact h.head?_append _

theorem Spells.head?_ne_star (htrivia : ∀ p ∈ ps, p.lexeme.isTrivia) : text.head? ≠ some '*' := by
  cases h with
  | done => simp
  | @piece source rest l ps h _ =>
    obtain ⟨c, cs, heq, rfl⟩ := h.lexeme_eq
    rw [heq]
    rintro ⟨⟩
    exact absurd (htrivia _ mem_cons_self) Bool.false_ne_true

/-- Without tokens, and with nothing but perhaps a comment left open, a text is white space and
comments. -/
theorem Spells.isTrivia_of_no_token {line : Nat} (htokens : (scan 0 line text).tokens = [])
    (hbroken : ∀ x ∈ (scan 0 line text).broken, x.fault = .openComment) :
    ∀ p ∈ ps, p.lexeme.isTrivia := by
  induction h generalizing line with
  | done => simp
  | @piece source rest l ps h hrest ih =>
    rw [(h.scan_append line).1] at htokens
    rw [(h.scan_append line).2] at hbroken
    cases l with
    | token => simp [Piece.token?] at htokens
    | gap size lines => exact forall_mem_cons.mpr ⟨rfl, ih htokens hbroken⟩
    | broken fault n =>
      obtain rfl := h.rest_eq_nil_of_broken
      obtain rfl : [] = ps := hrest.pieces_eq
      have hfault : fault = .openComment := hbroken ⟨line, fault⟩ rfl
      simp [Lexeme.isTrivia, hfault]

end

namespace Piece

def isBlockComment (p : Piece) : Bool :=
  p.lexeme.isTrivia && ['/', '*'].isPrefixOf p.source

/-- Whether the end of a block comment is seen where it is: no `--` is on its last line, its slash
is not that of an opening, and no star follows. -/
def endsPlainly (p : Piece) (next : Option Char) : Bool :=
  !Text.holds ['-', '-'] (afterLast '\n' p.source) && !(['/', '*', '/'].isSuffixOf p.source) &&
    next != some '*'

end Piece

/-- Whether the block comments before the first token end plainly. -/
def plainLead : List Piece → Bool
  | [] => true
  | p :: ps =>
    !p.lexeme.isTrivia ||
      (!p.isBlockComment || p.endsPlainly (ps.head?.bind (·.source.head?))) && plainLead ps

namespace Script

variable {body text rest : List Char} {c : Char} {ps : List Piece}

/-! ### Where a statement starts -/

theorem dropTrivia_plain_cons {cs : List Char} (hdashes : c = '-' → cs.head? ≠ some '-')
    (hopen : c = '/' → cs.head? ≠ some '*') :
    dropTrivia .plain (c :: cs) = if isBlank c then dropTrivia .plain cs else c :: cs := by
  rw [dropTrivia]
  · rintro ds hc rfl
    exact hdashes hc rfl
  · rintro ds hc rfl
    exact hopen hc rfl
  all_goals simp

theorem dropTrivia_of_opens (h : Opens text) : dropTrivia .plain text = text := by
  obtain ⟨c, cs, rfl, hblank, hdashes, hopen⟩ := h
  rw [dropTrivia_plain_cons hdashes hopen, if_neg (by simp [hblank])]

theorem dropTrivia_blank (h : isBlank c) (cs : List Char) :
    dropTrivia .plain (c :: cs) = dropTrivia .plain cs := by
  rw [dropTrivia_plain_cons, if_pos h]
  · rintro rfl
    cases h
  · rintro rfl
    cases h

theorem dropTrivia_lineComment (h : '\n' ∉ body) (hrest : ∀ c ∈ rest.head?, c = '\n') :
    dropTrivia .lineComment (body ++ rest) = dropTrivia .plain rest := by
  induction body with
  | nil =>
    cases rest with
    | nil => rfl
    | cons c cs =>
      obtain rfl : c = '\n' := hrest c rfl
      rw [dropTrivia_blank (by decide)]
      rfl
  | cons c body ih =>
    obtain ⟨hc, hbody⟩ := not_or.mp (mem_cons.not.mp h)
    rw [cons_append, dropTrivia, if_neg (Ne.symm hc), ih hbody]

theorem dropTrivia_blockComment_cons {cs : List Char} (h : ¬(c = '*' ∧ cs.head? = some '/')) :
    dropTrivia .blockComment (c :: cs) = dropTrivia .blockComment cs := by
  rw [dropTrivia]
  rintro ds hc rfl
  exact h ⟨hc, rfl⟩

theorem dropTrivia_blockComment (h : commentSize? (body ++ ['*']) = none) (rest : List Char) :
    dropTrivia .blockComment (body ++ '*' :: '/' :: rest) = dropTrivia .plain rest := by
  induction body with
  | nil => rfl
  | cons c body ih =>
    rw [cons_append, commentSize?_cons_eq_none] at h
    have hhead : (body ++ '*' :: '/' :: rest).head? = (body ++ ['*']).head? := by
      cases body <;> rfl
    rw [cons_append, dropTrivia_blockComment_cons (by rw [hhead]; exact h.1), ih h.2]

theorem dropTrivia_open (cs : List Char) :
    dropTrivia .plain ('/' :: '*' :: cs) = dropTrivia .blockComment cs :=
  rfl

theorem dropTrivia_openComment (h : commentSize? body = none) :
    dropTrivia .blockComment body = [] := by
  induction body with
  | nil => rfl
  | cons c body ih =>
    rw [commentSize?_cons_eq_none] at h
    rw [dropTrivia_blockComment_cons h.1, ih h.2]

/-- **White space and comments are passed over.** -/
theorem dropTrivia_gap {source : List Char} {size lines : Nat}
    (h : Spelled source rest.head? (.gap size lines)) :
    dropTrivia .plain (source ++ rest) = dropTrivia .plain rest := by
  generalize hnext : rest.head? = next at h
  cases h with
  | lineEnd => exact dropTrivia_blank (by decide) rest
  | blank hc _ => exact dropTrivia_blank hc rest
  | lineComment hbody hrest =>
    subst hnext
    exact dropTrivia_lineComment hbody hrest
  | @blockComment body _ hbody =>
    have htext : '/' :: '*' :: (body ++ ['*', '/']) ++ rest =
        '/' :: '*' :: (body ++ '*' :: '/' :: rest) := by simp
    rw [htext, dropTrivia_open, dropTrivia_blockComment hbody]

theorem onLine_tokens_dropTrivia (text : List Char) :
    (scan 0 1 (dropTrivia .plain text)).tokens.map (·.onLine 1) =
      (scan 0 1 text).tokens.map (·.onLine 1) := by
  have hspells := spells_pieces text
  generalize pieces text = ps at hspells
  induction hspells with
  | done => rfl
  | @piece source rest l ps h hrest ih =>
    cases hl : l.isTrivia with
    | false => rw [dropTrivia_of_opens (h.opens hl)]
    | true =>
      cases l with
      | token => exact absurd hl (by simp [Lexeme.isTrivia])
      | gap size lines =>
        rw [dropTrivia_gap h, ih, hrest.onLine_tokens, (Spells.piece h hrest).onLine_tokens]
        rfl
      | broken fault n =>
        obtain rfl : fault = .openComment := by simpa [Lexeme.isTrivia] using hl
        obtain rfl := h.rest_eq_nil_of_broken
        obtain rfl : [] = ps := hrest.pieces_eq
        rw [(Spells.piece h hrest).onLine_tokens]
        have h : Spelled source none (.broken .openComment n) := h
        cases h with
        | openComment hbody =>
          rw [append_nil, dropTrivia_open, dropTrivia_openComment hbody]
          rfl

/-- **The text of a statement starts at the first token.** -/
theorem dropTrivia_eq_drop (h : Spells text ps) {offset line : Nat} {q : Placed}
    (hq : (placedFrom offset line ps).head? = some q) :
    ∃ n, q.offset = offset + n ∧ dropTrivia .plain text = text.drop n := by
  induction h generalizing offset line with
  | done => simp [placedFrom] at hq
  | @piece source rest l ps h hrest ih =>
    cases l with
    | token size lines sort cs n =>
      obtain rfl : ⟨offset, _⟩ = q := by simpa [placedFrom, Piece.token?] using hq
      exact ⟨0, rfl, dropTrivia_of_opens (h.opens rfl)⟩
    | gap size lines =>
      have hq : (placedFrom (offset + source.length) (line + lines) ps).head? = some q := hq
      obtain ⟨n, hoffset, hdrop⟩ := ih hq
      refine ⟨source.length + n, by rw [hoffset, Nat.add_assoc], ?_⟩
      rw [dropTrivia_gap h, hdrop, drop_append]
      simp
    | broken fault n =>
      obtain rfl := h.rest_eq_nil_of_broken
      obtain rfl : [] = ps := hrest.pieces_eq
      simp [placedFrom, Piece.token?] at hq

/-! ### Comments that end plainly -/

theorem EndsPlainly.of_source {l : Lexeme} {next : Option Char}
    (h : (Piece.mk ('/' :: '*' :: (body ++ ['*', '/'])) l).endsPlainly next) :
    EndsPlainly false body := by
  simp only [Piece.endsPlainly, Bool.and_eq_true, Bool.not_eq_true', bne_iff_ne] at h
  obtain ⟨⟨hdashes, hopening⟩, -⟩ := h
  refine ⟨?_, by simp, ?_⟩
  · rintro before after rfl
    by_contra hline
    have hsource : '/' :: '*' :: (before ++ '-' :: '-' :: after ++ ['*', '/']) =
        ('/' :: '*' :: before) ++ ('-' :: '-' :: (after ++ ['*', '/'])) := by simp
    rw [hsource, afterLast_append_of_not_mem _ (by simpa using hline)] at hdashes
    obtain ⟨_, _, hcut, -⟩ := exists_cut ['-', '-'] (afterLast '\n' ('/' :: '*' :: before))
      (after ++ ['*', '/'])
    rw [append_assoc] at hcut
    rw [holds] at hdashes
    exact absurd (hdashes.symm.trans (congrArg Option.isSome hcut)) Bool.false_ne_true
  · intro hlast
    obtain ⟨front, rfl⟩ := getLast?_eq_some_iff.mp hlast
    have hsuffix : ['/', '*', '/'] <:+ '/' :: '*' :: (front ++ ['/'] ++ ['*', '/']) :=
      ⟨'/' :: '*' :: front, by simp⟩
    rw [isSuffixOf_iff_suffix.mpr hsuffix] at hopening
    cases hopening

/-! ### What gaps leave -/

theorem shows_skip_append (h : '\n' ∉ body) (inside : Bool) (rest : List Char) :
    shows inside true (body ++ rest) = shows inside true rest := by
  induction body with
  | nil => rfl
  | cons c body ih =>
    obtain ⟨hc, hbody⟩ := not_or.mp (mem_cons.not.mp h)
    rw [cons_append, shows_skip inside _ (Ne.symm hc), ih hbody]

/-- Between two gaps the test is inside a block comment, or not behind a `--`, or at the end of a
line. -/
def Between (inside skipping : Bool) (next : Option Char) : Prop :=
  inside = true ∨ skipping = false ∨ ∀ c ∈ next, c = '\n'

theorem Between.inside {inside : Bool} (h : Between inside true (some c)) (hc : c ≠ '\n') :
    inside := by
  rcases h with hinside | hskipping | hend
  · exact hinside
  · cases hskipping
  · exact absurd (hend c rfl) hc

/-- **One gap.**  If it is no block comment, or one that ends plainly, and the test was not inside a
block comment before it, it is not behind it. -/
theorem shows_gap {source : List Char} {size lines : Nat}
    (h : Spelled source rest.head? (.gap size lines))
    (hrest : ['/', '*'] <+: source → rest.head? ≠ some '*') {inside skipping : Bool}
    (hstate : Between inside skipping source.head?) :
    ∃ inside' skipping', shows inside skipping (source ++ rest) = shows inside' skipping' rest ∧
      Between inside' skipping' rest.head? ∧ (inside = false →
        (['/', '*'] <+: source → (Piece.mk source (.gap size lines)).endsPlainly rest.head?) →
        inside' = false) := by
  generalize hnext : rest.head? = next at h
  cases h with
  | lineEnd =>
    exact ⟨inside, false, shows_lineEnd inside rest skipping, .inr (.inl rfl), fun h _ => h⟩
  | @blank c _ hc hne =>
    cases skipping with
    | true =>
      exact ⟨inside, true, shows_skip inside rest hne, .inl (hstate.inside hne), fun h _ => h⟩
    | false =>
      refine ⟨inside, false, ?_, .inr (.inl rfl), fun h _ => h⟩
      have hdashes : c ≠ '-' := by rintro rfl; cases hc
      rw [singleton_append,
        shows_bare inside rest hne (by simp [hdashes]) (bare_of_isBlank hc _)]
      simp [hc]
  | @lineComment body _ hbody hend =>
    cases skipping with
    | true =>
      have hin := hstate.inside (by decide)
      have hsource : '\n' ∉ '-' :: '-' :: body := by simpa using hbody
      exact ⟨inside, true, shows_skip_append hsource inside rest, .inl hin, fun h _ => h⟩
    | false =>
      subst hnext
      refine ⟨inside, true, ?_, .inr (.inr hend), fun h _ => h⟩
      rw [cons_append, cons_append, shows_dashes, shows_skip_append hbody]
  | @blockComment body _ hbody =>
    have hprefix : ['/', '*'] <+: '/' :: '*' :: (body ++ ['*', '/']) := ⟨_, rfl⟩
    have hstar : rest.head? ≠ some '*' := hrest hprefix
    have htext : '/' :: '*' :: (body ++ ['*', '/']) ++ rest =
        '/' :: '*' :: (body ++ '*' :: '/' :: rest) := by simp
    have hopened : shows inside skipping ('/' :: '*' :: (body ++ '*' :: '/' :: rest)) =
        shows true skipping (body ++ '*' :: '/' :: rest) := by
      cases skipping with
      | true => rw [hstate.inside (by decide), shows_skip _ _ (by decide), shows_skip _ _ (by decide)]
      | false => exact shows_open inside _
    obtain ⟨inside', skipping', hshows, hbehind, hplain⟩ := shows_blockComment hbody hstar skipping
    refine ⟨inside', skipping', by rw [htext, hopened, hshows], hbehind.imp id .inl, ?_⟩
    intro hout hends
    cases skipping with
    | true =>
      -- behind a `--` and on its line the comment would be part of the line comment
      exact absurd (hstate.inside (by decide)) (by simp [hout])
    | false => exact (hplain (.of_source (hends hprefix))).1

/-! ### Which parts show anything -/

/-- **White space and comments** show nothing. -/
theorem not_shows_of_isTrivia (h : Spells text ps) (htrivia : ∀ p ∈ ps, p.lexeme.isTrivia)
    {inside skipping : Bool} (hstate : Between inside skipping text.head?) :
    shows inside skipping text = false := by
  induction h generalizing inside skipping with
  | done => rfl
  | @piece source rest l ps h hrest ih =>
    obtain ⟨hl, hps⟩ := forall_mem_cons.mp htrivia
    cases l with
    | token => cases hl
    | gap size lines =>
      rw [h.head?_append] at hstate
      obtain ⟨inside', skipping', hshows, hbetween, -⟩ :=
        shows_gap h (fun _ => hrest.head?_ne_star hps) hstate
      rw [hshows, ih hps hbetween]
    | broken fault n =>
      obtain rfl : fault = .openComment := by simpa [Lexeme.isTrivia] using hl
      obtain rfl := h.rest_eq_nil_of_broken
      rw [append_nil] at hstate ⊢
      have h : Spelled source none (.broken .openComment n) := h
      cases h with
      | openComment hbody =>
        cases skipping with
        | true =>
          rw [hstate.inside (by decide), shows_skip _ _ (by decide), shows_skip _ _ (by decide),
            shows_openComment hbody]
        | false => rw [shows_open, shows_openComment hbody]

/-- **A token shows**, if the block comments before the first one end plainly. -/
theorem shows_of_plainLead (h : Spells text ps) (hplain : plainLead ps)
    (htoken : ps.filterMap (·.token? 1) ≠ []) {skipping : Bool}
    (hstate : Between false skipping text.head?) : shows false skipping text := by
  induction h generalizing skipping with
  | done => exact absurd rfl htoken
  | @piece source rest l ps h hrest ih =>
    cases l with
    | token size lines sort cs n =>
      obtain ⟨c, cs, heq, hblank, hdashes, hopen⟩ := h.opens rfl
      have hline : c ≠ '\n' := by
        rintro rfl
        cases hblank
      rw [heq] at hstate ⊢
      -- the test is in no comment when it comes to the token
      cases skipping with
      | true => exact absurd (hstate.inside hline) (by decide)
      | false => exact shows_of_not_isBlank cs hblank hdashes hopen
    | gap size lines =>
      simp only [plainLead, Lexeme.isTrivia, Bool.not_true, Bool.false_or, Bool.and_eq_true,
        ← hrest.head?_eq] at hplain
      obtain ⟨hends, hplain⟩ := hplain
      have hends : ['/', '*'] <+: source →
          (Piece.mk source (.gap size lines)).endsPlainly rest.head? := by
        intro hopen
        have hblock : (Piece.mk source (.gap size lines)).isBlockComment :=
          isPrefixOf_iff_prefix.mpr hopen
        simpa [hblock] using hends
      have hstar : ['/', '*'] <+: source → rest.head? ≠ some '*' := by
        intro hopen
        have hplainly := hends hopen
        simp only [Piece.endsPlainly, Bool.and_eq_true, bne_iff_ne] at hplainly
        exact hplainly.2
      rw [h.head?_append] at hstate
      obtain ⟨inside', skipping', hshows, hbetween, hout⟩ := shows_gap h hstar hstate
      obtain rfl := hout rfl hends
      rw [hshows]
      exact ih hplain htoken hbetween
    | broken fault n =>
      obtain rfl := h.rest_eq_nil_of_broken
      obtain rfl : [] = ps := hrest.pieces_eq
      exact absurd rfl htoken

/-! ### Statements -/

/-- **What a part of a script gives.**  A statement that it gives starts at the first token of the
part and has its tokens.  It gives none if it has no token and nothing but perhaps a comment is left
open, and it gives one if it has a token and the comments before the first one end plainly. -/
structure Part.Yields (p : Part) (result : Option Statement) : Prop where
  starts : ∀ s ∈ result, ∀ q ∈ (placed p.text).head?, s.text = trimEnd (p.text.drop q.offset)
  tokens : ∀ s ∈ result, (tokenize (String.ofList s.text)).tokens.map (·.onLine 1) =
    (tokenize (String.ofList p.text)).tokens.map (·.onLine 1)
  none_of_no_token : (tokenize (String.ofList p.text)).tokens = [] →
    (∀ fault ∈ (tokenize (String.ofList p.text)).broken, fault.fault = .openComment) → result = none
  some_of_token : (tokenize (String.ofList p.text)).tokens ≠ [] →
    plainLead (pieces p.text) = true → result.isSome = true

theorem statement?_eq (first : Nat) (p : Part) : (shows false false p.text = false ∧
    p.statement? first = none) ∨ (shows false false p.text ∧ ∃ s,
      p.statement? first = some s ∧ s.text = trimEnd (dropTrivia .plain p.text)) := by
  rw [Part.statement?, isEmpty_trim_stripComments]
  cases shows false false p.text with
  | false => exact .inl ⟨rfl, rfl⟩
  | true => exact .inr ⟨rfl, _, rfl, rfl⟩

theorem statement?_yields (first : Nat) (p : Part) : p.Yields (p.statement? first) := by
  have hscan : ∀ cs, tokenize (String.ofList cs) = scan 0 1 cs := by
    intro cs
    rw [tokenize, String.toList_ofList]
  have hspells := spells_pieces p.text
  have hstart : Between false false p.text.head? := .inr (.inl rfl)
  rcases statement?_eq first p with ⟨hshows, hnone⟩ | ⟨hshows, s, hsome, htext⟩
  · rw [hnone]
    refine ⟨by simp, by simp, fun _ _ => rfl, ?_⟩
    intro htokens hplain
    have hfilter : (pieces p.text).filterMap (·.token? 1) ≠ [] := by
      rw [← hspells.onLine_tokens 1 1, ← hscan]
      simpa using htokens
    rw [shows_of_plainLead hspells hplain hfilter hstart] at hshows
    cases hshows
  · rw [hsome]
    refine ⟨?_, ?_, ?_, fun _ _ => rfl⟩
    · rintro _ ⟨⟩ q hq
      obtain ⟨n, hoffset, hdrop⟩ := dropTrivia_eq_drop hspells hq
      rw [htext, hdrop, hoffset, Nat.zero_add]
    · rintro _ ⟨⟩
      rw [htext, hscan, hscan, tokens_trimEnd, onLine_tokens_dropTrivia]
    · rw [hscan]
      intro htokens hbroken
      have htrivia := hspells.isTrivia_of_no_token htokens hbroken
      rw [not_shows_of_isTrivia hspells htrivia hstart] at hshows
      cases hshows

theorem statementsFrom_yields (first : Nat) (ps : List Part) : ∃ results : List (Option Statement),
    statementsFrom first ps = results.reduceOption ∧ Forall₂ Part.Yields ps results := by
  induction ps generalizing first with
  | nil => exact ⟨[], rfl, .nil⟩
  | cons p ps ih =>
    obtain ⟨results, hresults, hyields⟩ := ih (first + p.lines)
    refine ⟨p.statement? first :: results, ?_, .cons (statement?_yields first p) hyields⟩
    rw [statementsFrom, hresults]
    cases p.statement? first <;> simp

/-- **Each part of a script gives its statement**, in order. -/
theorem split_yields_statements_of_parts (text : List Char) :
    Text.joinWith [';'] ((parts .plain text).map (·.text)) = text ∧
      ∃ results : List (Option Statement), split text = results.reduceOption ∧
        List.Forall₂ Part.Yields (parts .plain text) results :=
  ⟨joinWith_parts .plain text, statementsFrom_yields 1 (parts .plain text)⟩

-- a script with comments before its statements, and one behind them
example : let script := "-- a\n/* b;\n * c */ select 'x;y'; /* d */ ; delete from t -- e".toList
    ((parts .plain script).all fun p => plainLead (pieces p.text)) = true ∧
      (split script).map (String.ofList ·.text) = ["select 'x;y'", "delete from t -- e"] := by
  decide +kernel

/-- Dashes in a comment hide the statement behind it, and what is not closed is taken for one. -/
theorem statement_lost_behind_dashes_in_comment :
    (tokenize "/*----*/\nselect a from t").tokens.length = 4 ∧
      parts .plain "/*----*/\nselect a from t".toList = [⟨"/*----*/\nselect a from t".toList, 1⟩] ∧
      split "/*----*/\nselect a from t".toList = [] ∧
      (tokenize "'a").tokens = [] ∧ split "'a".toList = [⟨1, 1, "'a".toList⟩] := by
  decide +kernel

end Script

end AppAtlas.Sql
