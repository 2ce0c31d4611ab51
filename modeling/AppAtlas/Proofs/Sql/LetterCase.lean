import AppAtlas.Proofs.Sql.Lexemes
import AppAtlas.Proofs.Sql.Redrawn
import AppAtlas.Proofs.Text.LetterCase

/-!
# Statements in letters of either case

Small letters spell what capitals spell: each rule of the grammar asks for marks and for classes of
characters that ignore case.  So a text in small letters has the tokens of the text, at the same
places and with their own letters made small, and the walk over them does not notice.

* `scan_lower`: the tokens of a text in small letters.
* `analyze_lowerString`: what a statement in small letters uses.
-/

namespace AppAtlas.Sql

open List Text

variable {source : List Char} {next : Option Char}

open Text (lower IgnoresCase ignoresCase_of_all toLower_eq_iff mem_lower_iff)

/-! ### Classes of characters -/

theorem ignoresCase_isBlank : IgnoresCase isBlank :=
  ignoresCase_of_all (by decide)

theorem ignoresCase_startsWord : IgnoresCase startsWord :=
  ignoresCase_of_all (by decide +kernel)

theorem ignoresCase_continuesWord : IgnoresCase continuesWord :=
  ignoresCase_of_all (by decide +kernel)

theorem ignoresCase_continuesNumber : IgnoresCase continuesNumber :=
  ignoresCase_of_all (by decide)

theorem ignoresCase_isDigit : IgnoresCase Char.isDigit :=
  ignoresCase_of_all (by decide)

theorem ignoresCase_isMark : IgnoresCase isMark :=
  ignoresCase_of_all (by decide)

theorem toLower_of_isMark {c : Char} (h : isMark c) : c.toLower = c := by
  have hall : "(),.;*".toList.all (fun c => !c.isAlpha) = true := by decide
  have hmem : c ∈ "(),.;*".toList := by simpa [isMark] using h
  have halpha := all_eq_true.mp hall c hmem
  exact (toLower_eq_iff (by simpa using halpha)).mpr rfl

/-! ### Each rule of the grammar -/

theorem commentSize?_lower (cs : List Char) : commentSize? (lower cs) = commentSize? cs := by
  induction cs with
  | nil => rfl
  | cons c cs ih =>
    have hstar : c.toLower = '*' ↔ c = '*' := toLower_eq_iff (by decide)
    have hslash : cs.head?.map Char.toLower = some '/' ↔ cs.head? = some '/' :=
      map_toLower_eq_some_iff (by decide)
    rw [lower_cons, commentSize?, commentSize?, ih, head?_lower]
    simp only [hstar, hslash]

theorem StringBody.lower {body : List Char} (h : StringBody body) : StringBody (lower body) := by
  induction h with
  | nil => exact .nil
  | escaped _ ih => exact .escaped ih
  | doubled _ ih => exact .doubled ih
  | other hslash hquote _ ih =>
    exact .other (mt (toLower_eq_iff (by decide)).mp hslash)
      (mt (toLower_eq_iff (by decide)).mp hquote) ih

theorem OpenString.lower {body : List Char} (h : OpenString body) : OpenString (lower body) := by
  obtain ⟨front, hfront, rfl | rfl⟩ := h
  · exact ⟨Text.lower body, hfront.lower, .inl rfl⟩
  · exact ⟨Text.lower front, hfront.lower, .inr (lower_append front ['\\'])⟩

theorem StartsWord.lower (h : StartsWord source) : StartsWord (lower source) := by
  rcases h with h | ⟨rest, rfl⟩
  · have hsame : (fun c => startsWord c.toLower) = startsWord := funext ignoresCase_startsWord
    refine .inl ?_
    rwa [head?_lower, Option.any_map, hsame]
  · exact .inr ⟨lower rest, rfl⟩

theorem WordOf.lower {n : Nat} {literal : Bool} (h : WordOf next source n literal) :
    WordOf (next.map Char.toLower) (lower source) n literal := by
  induction h with
  | done hnext => exact .done (forall_mem_map_toLower ignoresCase_continuesWord hnext)
  | @letter c cs n literal hc hplain _ ih =>
    rw [lower_cons]
    refine .letter ((ignoresCase_continuesWord c).trans hc) ?_ ih
    intro hdollar hopen
    rw [head?_lower, ← Option.map_or, map_toLower_eq_some_iff (by decide)] at hopen
    exact hplain ((toLower_eq_iff (by decide)).mp hdollar) hopen
  | @substitution body cs n literal hbody _ ih =>
    rw [lower_cons, lower_cons, lower_append, lower_cons]
    exact .substitution (mt (mem_lower_iff (by decide)).mp hbody) ih

theorem OpenWord.lower {n : Nat} (h : OpenWord source n) : OpenWord (lower source) n := by
  induction h with
  | start hbody => exact .start (mt (mem_lower_iff (by decide)).mp hbody)
  | @letter c cs n hc hplain _ ih =>
    rw [lower_cons]
    refine .letter ((ignoresCase_continuesWord c).trans hc) ?_ ih
    intro hdollar hopen
    rw [head?_lower, map_toLower_eq_some_iff (by decide)] at hopen
    exact hplain ((toLower_eq_iff (by decide)).mp hdollar) hopen
  | @substitution body cs n hbody _ ih =>
    rw [lower_cons, lower_cons, lower_append, lower_cons]
    exact .substitution (mt (mem_lower_iff (by decide)).mp hbody) ih

theorem isAlpha_eq_false_of_mem_identifierMarks {mark : Char} (h : mark ∈ identifierMarks) :
    mark.isAlpha = false ∧ (closing mark).isAlpha = false := by
  simp only [identifierMarks, mem_cons, not_mem_nil, or_false] at h
  rcases h with rfl | rfl | rfl <;> decide

theorem Alone.lower {c : Char} (h : Alone c next) : Alone c.toLower (next.map Char.toLower) := by
  have hpair : ∀ {a b : Char}, a.isAlpha = false → b.isAlpha = false →
      (c = a → next ≠ some b) → c.toLower = a → next.map Char.toLower ≠ some b := by
    intro a b ha hb hab hc hnext
    exact hab ((toLower_eq_iff ha).mp hc) ((map_toLower_eq_some_iff hb).mp hnext)
  exact
    { notBlank := (ignoresCase_isBlank c).trans h.notBlank
      notLineComment := hpair (by decide) (by decide) h.notLineComment
      notBlockComment := hpair (by decide) (by decide) h.notBlockComment
      notString := mt (toLower_eq_iff (by decide)).mp h.notString
      notIdentifier := by
        intro hmark
        have hsame : c = c.toLower :=
          (toLower_eq_iff (isAlpha_eq_false_of_mem_identifierMarks hmark).1).mp rfl
        rw [← hsame] at hmark
        exact h.notIdentifier hmark
      notPlaceholder := hpair (by decide) (by decide) h.notPlaceholder
      notWord := (ignoresCase_startsWord c).trans h.notWord
      notSubstitution := hpair (by decide) (by decide) h.notSubstitution
      notParam := mt (toLower_eq_iff (by decide)).mp h.notParam
      notCast := hpair (by decide) (by decide) h.notCast
      notNamed := fun hc => forall_mem_map_toLower ignoresCase_startsWord
        (h.notNamed ((toLower_eq_iff (by decide)).mp hc))
      notNumber := (ignoresCase_isDigit c).trans h.notNumber }

def Lexeme.lowered : Lexeme → Lexeme
  | .token size lines sort text fragments => .token size lines sort (lower text) fragments
  | .gap size lines => .gap size lines
  | .broken fault fragments => .broken fault fragments

/-- **Small letters spell what capitals spell.** -/
theorem Spelled.lower {l : Lexeme} (h : Spelled source next l) :
    Spelled (lower source) (next.map Char.toLower) l.lowered := by
  have hnot : ∀ {mark : Char}, mark.isAlpha = false → ∀ {cs : List Char}, mark ∉ cs →
      mark ∉ Text.lower cs := fun hmark cs hcs => mt (mem_lower_iff hmark).mp hcs
  cases h with
  | lineEnd => exact .lineEnd
  | @blank c _ hblank hne =>
    exact .blank ((ignoresCase_isBlank c).trans hblank) (mt (toLower_eq_iff (by decide)).mp hne)
  | @lineComment body _ hbody hnext =>
    rw [Lexeme.lowered, ← length_lower body]
    refine .lineComment (hnot (by decide) hbody) ?_
    intro c hc
    obtain ⟨d, hd, rfl⟩ := Option.map_eq_some_iff.mp hc
    rw [hnext d hd]
    rfl
  | @blockComment body _ hbody =>
    have hlower : commentSize? (lower body ++ ['*']) = none := by
      rw [← commentSize?_lower, lower_append] at hbody
      exact hbody
    simpa [Lexeme.lowered] using Spelled.blockComment hlower
  | @string body _ hbody hnext =>
    simpa [Lexeme.lowered] using
      Spelled.string hbody.lower (mt (map_toLower_eq_some_iff (by decide)).mp hnext)
  | @identifier mark body _ hmark hbody =>
    obtain ⟨hopening, hclosing⟩ := isAlpha_eq_false_of_mem_identifierMarks hmark
    have hopening' : mark.toLower = mark := (toLower_eq_iff hopening).mpr rfl
    have hclosing' : lower [closing mark] = [closing mark] :=
      congrArg (· :: []) ((toLower_eq_iff hclosing).mpr rfl)
    rw [Lexeme.lowered, ← length_lower body, ← newlines_lower body, lower_cons,
      lower_append, hopening', hclosing']
    exact .identifier hmark (hnot hclosing hbody)
  | @placeholder body _ hbody =>
    simpa [Lexeme.lowered] using Spelled.placeholder (hnot (by decide) hbody)
  | word hstart hword =>
    rw [Lexeme.lowered, ← length_lower source]
    exact .word hstart.lower hword.lower
  | question => exact .question
  | cast => exact .cast
  | @named c body _ hc hbody hnext =>
    rw [Lexeme.lowered, ← length_lower body]
    exact .named ((ignoresCase_startsWord c).trans hc)
      (forall_mem_lower ignoresCase_continuesWord hbody)
      (forall_mem_map_toLower ignoresCase_continuesWord hnext)
  | @number c body _ hc hbody hnext =>
    rw [Lexeme.lowered, ← length_lower body]
    exact .number ((ignoresCase_isDigit c).trans hc)
      (forall_mem_lower ignoresCase_continuesNumber hbody)
      (forall_mem_map_toLower ignoresCase_continuesNumber hnext)
  | @alone c _ halone =>
    have hsort : (if isMark c then TokenSort.punct c else .operator) =
        if isMark c.toLower then .punct c.toLower else .operator := by
      cases hmark : isMark c with
      | true => rw [toLower_of_isMark hmark, hmark]
      | false => rw [ignoresCase_isMark, hmark, if_neg (by decide), if_neg (by decide)]
    rw [Lexeme.lowered, hsort]
    exact .alone halone.lower
  | openComment hbody => exact .openComment ((commentSize?_lower _).trans hbody)
  | openString hbody => exact .openString hbody.lower
  | @openIdentifier mark body hmark hbody =>
    obtain ⟨hopening, hclosing⟩ := isAlpha_eq_false_of_mem_identifierMarks hmark
    rw [lower_cons, (toLower_eq_iff hopening).mpr rfl]
    exact .openIdentifier hmark (hnot hclosing hbody)
  | openPlaceholder hbody => exact .openPlaceholder (hnot (by decide) hbody)
  | openSubstitution hstart hword => exact .openSubstitution hstart.lower hword.lower

/-! ### Whole texts -/

theorem lexeme_lower (c : Char) (cs : List Char) :
    lexeme c.toLower (lower cs) = (lexeme c cs).lowered := by
  obtain ⟨source, rest, htext, hspelled⟩ := readAsSpelled c cs
  have hlower := hspelled.lower
  rw [← head?_lower] at hlower
  obtain ⟨d, ds, htext', hlexeme⟩ := hlower.lexeme_eq
  rw [← lower_append, ← htext, lower_cons] at htext'
  obtain ⟨rfl, rfl⟩ := cons.inj htext'
  exact hlexeme

def Token.lowered (t : Token) : Token :=
  { t with text := lowerString t.text }

/-- **The tokens of a text in small letters** are its tokens in small letters. -/
theorem scan_lower (skip line : Nat) (cs : List Char) : scan skip line (lower cs) =
    { scan skip line cs with tokens := (scan skip line cs).tokens.map Token.lowered } := by
  induction cs generalizing skip line with
  | nil => rfl
  | cons c cs ih =>
    cases skip with
    | succ skip => exact ih skip line
    | zero =>
      rw [lower_cons, scan, scan, lexeme_lower]
      cases lexeme c cs with
      | gap size lines => exact ih (size - 1) (line + lines)
      | token size lines sort text fragments =>
        simp only [Lexeme.lowered, ih, map_cons, Token.lowered, lowerString_ofList]
      | broken fault fragments => rfl

def lowering : Redrawing where
  token := Token.lowered
  line := id
  sort_token _ := rfl
  dynamic_token _ := rfl
  line_token _ := rfl
  lowerText_token t _ := lowerString_lowerString t.text

theorem relined_id (w : Walk) : w.relined id = w := by
  have htables : TableUse.relined id = id := rfl
  have hqualified : QualifiedUse.relined id = id := rfl
  have hbare : NameUse.relined id = id := rfl
  rw [Walk.relined, htables, hqualified, hbare, map_id, map_id, map_id]

theorem parenthesisFault_lowered (depth line : Nat) (ts : List Token) :
    parenthesisFault depth line (ts.map Token.lowered) = parenthesisFault depth line ts := by
  induction ts generalizing depth line with
  | nil => rfl
  | cons t ts ih =>
    have hpunct : ∀ mark, t.lowered.isPunct mark = t.isPunct mark := fun _ => rfl
    have hline : t.lowered.line = t.line := rfl
    cases depth with
    | zero => simp only [map_cons, parenthesisFault, hpunct, hline, ih]
    | succ depth => simp only [map_cons, parenthesisFault, hpunct, hline, ih]

/-- **A statement in small letters uses what the statement uses.** -/
theorem analyze_lowerString (text : String) : analyze (lowerString text) = analyze text := by
  have hscan : tokenize (lowerString text) =
      { tokenize text with tokens := (tokenize text).tokens.map Token.lowered } := by
    rw [tokenize, tokenize, lowerString, toList_onString, scan_lower]
  have hwalk : walkTokens ((tokenize text).tokens.map Token.lowered) =
      walkTokens (tokenize text).tokens :=
    (redrawn_walkTokens lowering _).trans (relined_id _)
  have hkeywords : ((tokenize text).tokens.map Token.lowered).filterMap Token.keyword? =
      (tokenize text).tokens.filterMap Token.keyword? := by
    rw [filterMap_map]
    exact congrArg (filterMap · _) (funext lowering.keyword?_token)
  simp only [analyze, Tokens.problems, hscan, hwalk, hkeywords, parenthesisFault_lowered]

/-- **Case does not matter.**  Statements that differ in the case of letters only have the same
operation, tables, columns, number of substitutions and problems. -/
theorem analyze_eq_of_sameLetters {a b : String} (h : Text.sameLetters a.toList b.toList = true) :
    analyze a = analyze b := by
  have hlower : Text.lowerString a = Text.lowerString b :=
    congrArg String.ofList (beq_iff_eq.mp h)
  rw [← analyze_lowerString a, hlower, analyze_lowerString b]

/-- A common table, aliases and a name for a result, each spelled in two ways. -/
theorem mixed_case_read_alike :
    Text.sameLetters
      "With Recent As (Select * From Orders) Select R.Id N From recent r Where N = '[x'".toList
      "with recent as (select * from orders) select r.id n from RECENT R where n = '[X'".toList ∧
    analyze "With Recent As (Select * From Orders) Select R.Id N From recent r Where N = '[x'" =
      { operation := some "with", tables := [⟨"orders", none, .read, false, 1⟩], columns := [],
        fragments := 0, problems := [] } := by
  have hsame : Text.sameLetters
      "With Recent As (Select * From Orders) Select R.Id N From recent r Where N = '[x'".toList
      "with recent as (select * from orders) select r.id n from RECENT R where n = '[X'".toList :=
    by decide +kernel
  refine ⟨hsame, ?_⟩
  rw [analyze_eq_of_sameLetters hsame]
  decide +kernel

end AppAtlas.Sql
