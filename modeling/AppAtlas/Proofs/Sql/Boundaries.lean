import AppAtlas.Proofs.Sql.Lexemes
import AppAtlas.Sql.Script

/-!
# Where scripts are cut

A script is cut at semicolons by a scan of its own, which knows quotes and comments and nothing
else. The tokenizer knows more: identifiers in brackets, placeholders and substitutions, and that a
backslash means nothing inside a quoted identifier.  So the two can differ on what stands inside
these, and nowhere else: over any other lexeme the scan goes without a cut and comes out in plain
text, unless the lexeme is a semicolon.

* `Script.Passes`, `Spelled.eq_semicolon_or_passes`: one lexeme.
* `Spells.cutsFrom_parts`: all of them, by induction on the pieces.
* `cuts_eq_semicolons_of_quiet`: the cuts are the semicolons of the tokenizer, if nothing inside
  brackets, placeholders, substitutions and quoted identifiers looks like something else.
-/

namespace AppAtlas.Sql

open List

namespace Script

variable {body rest source : List Char}

/-! ### Parts and cuts -/

/-- The offsets at which some parts are cut from each other, the first of them being at `offset`. -/
def cutsFrom (offset : Nat) : List Part → List Nat
  | [] => []
  | [_] => []
  | p :: q :: ps => (offset + p.text.length) :: cutsFrom (offset + p.text.length + 1) (q :: ps)

def cuts (text : List Char) : List Nat :=
  cutsFrom 0 (parts .plain text)

theorem extend_extend (a b : List Char) (m n : Nat) (ps : List Part) :
    extend a m (extend b n ps) = extend (a ++ b) (m + n) ps := by
  cases ps <;> simp [extend, Nat.add_assoc]

theorem cutsFrom_extend (offset : Nat) (cs : List Char) (n : Nat) (ps : List Part) :
    cutsFrom offset (extend cs n ps) = cutsFrom (offset + cs.length) ps := by
  match ps with
  | [] => rfl
  | [p] => rfl
  | p :: q :: ps => simp [extend, cutsFrom, Nat.add_assoc]

@[simp] theorem extend_ne_nil (cs : List Char) (n : Nat) (ps : List Part) : extend cs n ps ≠ [] := by
  cases ps <;> simp [extend]

theorem parts_ne_nil (mode : Mode) (text : List Char) : parts mode text ≠ [] := by
  fun_cases parts mode text <;> simp

theorem extend_nil_parts (mode : Mode) (text : List Char) :
    extend [] 0 (parts mode text) = parts mode text := by
  cases hparts : parts mode text with
  | nil => exact absurd hparts (parts_ne_nil mode text)
  | cons p ps => simp [extend]

theorem cutsFrom_cons (offset : Nat) (p : Part) {ps : List Part} (h : ps ≠ []) :
    cutsFrom offset (p :: ps) =
      (offset + p.text.length) :: cutsFrom (offset + p.text.length + 1) ps := by
  cases ps with
  | nil => exact absurd rfl h
  | cons q ps => rfl

theorem joinWith_extend (cs : List Char) (n : Nat) {ps : List Part} (h : ps ≠ []) :
    Text.joinWith [';'] ((extend cs n ps).map (·.text)) =
      cs ++ Text.joinWith [';'] (ps.map (·.text)) := by
  match ps with
  | [] => exact absurd rfl h
  | [p] => simp [extend, Text.joinWith]
  | p :: q :: ps => simp [extend, Text.joinWith, intercalate_cons_cons]

theorem joinWith_parts (mode : Mode) (text : List Char) :
    Text.joinWith [';'] ((parts mode text).map (·.text)) = text := by
  fun_induction parts mode text with
  | case1 => rfl
  | case4 cs _ _ ih =>
    rw [map_cons, Text.joinWith, intercalate_cons_of_ne_nil (by simp [parts_ne_nil])]
    exact congrArg (cons ';') ih
  | _ => simp_all [joinWith_extend, parts_ne_nil]

theorem lines_le_of_mem_extend {cs : List Char} {lines : Nat} {ps : List Part}
    (hcs : lines ≤ cs.length) (h : ∀ p ∈ ps, p.lines ≤ p.text.length) :
    ∀ p ∈ extend cs lines ps, p.lines ≤ p.text.length := by
  cases ps with
  | nil => simpa [extend] using hcs
  | cons p ps =>
    obtain ⟨hp, hps⟩ := forall_mem_cons.mp h
    refine forall_mem_cons.mpr ⟨?_, hps⟩
    rw [length_append]
    exact Nat.add_le_add hcs hp

/-- No part has more line ends than characters. -/
theorem lines_le_of_mem_parts (mode : Mode) (text : List Char) :
    ∀ p ∈ parts mode text, p.lines ≤ p.text.length := by
  have hline : ∀ c, lineEnds c ≤ 1 := by
    intro c
    rw [lineEnds]
    split <;> simp
  fun_induction parts mode text with
  | case1 => simp
  | case4 _ _ _ ih => simpa using ih
  | _ => exact lines_le_of_mem_extend (by simp [hline]) (by assumption)

theorem parts_plain_cons {c : Char} {cs : List Char} (hline : c = '-' → cs.head? ≠ some '-')
    (hblock : c = '/' → cs.head? ≠ some '*') : parts .plain (c :: cs) =
      if c = ';' then ⟨[], 0⟩ :: parts .plain cs
      else if isQuote c then extend [c] 0 (parts (.quoted c) cs)
      else extend [c] (lineEnds c) (parts .plain cs) := by
  rw [parts]
  · rintro ds hc rfl
    exact hline hc rfl
  · rintro ds hc rfl
    exact hblock hc rfl

/-- **The scan goes over some text** without a cut and is in plain text behind it. -/
def Passes (source rest : List Char) : Prop :=
  ∃ n : Nat, parts .plain (source ++ rest) = extend source n (parts .plain rest)

theorem passes_lineComment (h : '\n' ∉ body) (hrest : ∀ c ∈ rest.head?, c = '\n') :
    Passes ('-' :: '-' :: body) rest := by
  have hend : parts .lineComment rest = parts .plain rest := by
    cases rest with
    | nil => rfl
    | cons c cs =>
      obtain rfl : c = '\n' := hrest c rfl
      simp [parts, isQuote]
  have hbody : parts .lineComment (body ++ rest) = extend body 0 (parts .plain rest) := by
    induction body with
    | nil => rw [nil_append, hend, extend_nil_parts]
    | cons c body ih =>
      obtain ⟨hc, hbody⟩ := not_or.mp (mem_cons.not.mp h)
      rw [cons_append, parts, if_neg (Ne.symm hc), ih hbody, extend_extend, lineEnds,
        if_neg (Ne.symm hc)]
      rfl
  exact ⟨0, by rw [cons_append, cons_append, parts, hbody, extend_extend]; rfl⟩

theorem parts_blockComment (h : commentSize? (body ++ ['*']) = none)
    (rest : List Char) : ∃ n, parts .blockComment (body ++ '*' :: '/' :: rest) =
      extend (body ++ ['*', '/']) n (parts .plain rest) := by
  induction body with
  | nil => exact ⟨0, rfl⟩
  | cons c body ih =>
    rw [cons_append, commentSize?_cons_eq_none] at h
    obtain ⟨n, hn⟩ := ih h.2
    refine ⟨lineEnds c + n, ?_⟩
    rw [cons_append, parts, hn, extend_extend]
    · rfl
    · intro ds hc hds
      refine h.1 ⟨hc, ?_⟩
      cases body with
      | nil => simp at hds
      | cons d body => simpa using (cons.inj hds).1

/-- The inside of a string with its closing quote.  A doubled quote leaves the string and enters it
again. -/
theorem parts_string (h : StringBody body) (rest : List Char) :
    ∃ n, parts (.quoted '\'') (body ++ '\'' :: rest) =
      extend (body ++ ['\'']) n (parts .plain rest) := by
  induction h with
  | nil => exact ⟨0, by simp [parts]⟩
  | @escaped c cs _ ih =>
    obtain ⟨n, hn⟩ := ih
    exact ⟨0 + n, by rw [cons_append, cons_append, parts, hn, extend_extend]; rfl⟩
  | @doubled cs _ ih =>
    -- between the two quotes the scan is in plain text, where the second one is an opening quote
    obtain ⟨n, hn⟩ := ih
    have hopen : parts .plain ('\'' :: (cs ++ '\'' :: rest)) =
        extend ['\''] 0 (parts (.quoted '\'') (cs ++ '\'' :: rest)) := by
      rw [parts_plain_cons (by simp) (by simp)]
      simp [isQuote]
    refine ⟨0 + 0 + n, ?_⟩
    rw [cons_append, cons_append, parts, if_pos rfl, hopen, hn, extend_extend,
      extend_extend]
    · rfl
    · simp
  | @other c cs hslash hquote _ ih =>
    obtain ⟨n, hn⟩ := ih
    refine ⟨lineEnds c + n, ?_⟩
    rw [cons_append, parts, if_neg hquote, hn, extend_extend]
    · rfl
    · exact fun _ _ hc _ => hslash hc

theorem parts_quoted {mark : Char} (h : mark ∉ body) (hslash : '\\' ∉ body) (hmark : mark ≠ '\\')
    (rest : List Char) : ∃ n,
      parts (.quoted mark) (body ++ mark :: rest) = extend (body ++ [mark]) n (parts .plain rest) := by
  induction body with
  | nil =>
    refine ⟨0, ?_⟩
    rw [nil_append, parts, if_pos rfl]
    · rfl
    · exact fun _ _ hc _ => hmark hc
  | cons c body ih =>
    obtain ⟨hc, hbody⟩ := not_or.mp (mem_cons.not.mp h)
    obtain ⟨hc', hbody'⟩ := not_or.mp (mem_cons.not.mp hslash)
    obtain ⟨n, hn⟩ := ih hbody hbody'
    refine ⟨lineEnds c + n, ?_⟩
    rw [cons_append, parts, if_neg (Ne.symm hc), hn, extend_extend]
    · rfl
    · exact fun _ _ h _ => hc' h.symm

theorem passes_quote {mark : Char} (hmark : isQuote mark)
    (h : ∃ n, parts (.quoted mark) (body ++ mark :: rest) =
      extend (body ++ [mark]) n (parts .plain rest)) : Passes (mark :: (body ++ [mark])) rest := by
  obtain ⟨n, hn⟩ := h
  have hplain : mark ≠ '-' ∧ mark ≠ '/' ∧ mark ≠ ';' := by
    simp only [isQuote, Bool.or_eq_true, beq_iff_eq] at hmark
    rcases hmark with (rfl | rfl) | rfl <;> decide
  refine ⟨0 + n, ?_⟩
  rw [cons_append, append_assoc, parts_plain_cons (fun h => absurd h hplain.1)
    (fun h => absurd h hplain.2.1), if_neg hplain.2.2, if_pos hmark, singleton_append, hn,
    extend_extend]
  rfl

/-! ### Smooth text -/

/-- **Text with nothing in it that the scan stops at**, `next` being the character behind it: no
semicolon, no quote, and no two characters that open a comment. -/
def Smooth (next : Option Char) : List Char → Prop
  | [] => True
  | c :: cs => c ≠ ';' ∧ isQuote c = false ∧ (c = '-' → cs.head?.or next ≠ some '-') ∧
    (c = '/' → cs.head?.or next ≠ some '*') ∧ Smooth next cs

theorem Smooth.passes (h : Smooth rest.head? source) : Passes source rest := by
  induction source with
  | nil => exact ⟨0, (extend_nil_parts .plain rest).symm⟩
  | cons c source ih =>
    obtain ⟨hsemi, hquote, hline, hblock, htail⟩ := h
    obtain ⟨n, hn⟩ := ih htail
    rw [← head?_append] at hline hblock
    refine ⟨lineEnds c + n, ?_⟩
    rw [cons_append, parts_plain_cons hline hblock, if_neg hsemi, if_neg (by simp [hquote]), hn,
      extend_extend]
    rfl

/-- The characters at which the scan may stop. -/
def stops : List Char := ['-', '/', ';', '\'', '"', '\x60']

theorem smooth_of_forall (h : ∀ c ∈ source, c ∉ stops) (next : Option Char) :
    Smooth next source := by
  induction source with
  | nil => trivial
  | cons c source ih =>
    obtain ⟨hc, hsource⟩ := forall_mem_cons.mp h
    simp only [stops, mem_cons, not_mem_nil, or_false, not_or] at hc
    refine ⟨hc.2.2.1, by simp [isQuote, hc], fun h => absurd h hc.1, fun h => absurd h hc.2.1,
      ih hsource⟩

/-- Text without semicolons, quotes and openings of comments. -/
def Plain (text : List Char) : Prop :=
  ';' ∉ text ∧ (∀ c ∈ text, isQuote c = false) ∧ ¬['-', '-'] <:+: text ∧ ¬['/', '*'] <:+: text

theorem Plain.tail {c : Char} {cs : List Char} (h : Plain (c :: cs)) : Plain cs := by
  obtain ⟨hsemi, hquote, hline, hblock⟩ := h
  exact ⟨fun hmem => hsemi (mem_cons_of_mem c hmem),
    fun d hd => hquote d (mem_cons_of_mem c hd), fun h => hline (infix_cons h),
    fun h => hblock (infix_cons h)⟩

theorem Plain.smooth (h : Plain source) (hlast : ∀ d ∈ source.getLast?, d ∉ stops)
    (next : Option Char) : Smooth next source := by
  induction source with
  | nil => trivial
  | cons c cs ih =>
    cases cs with
    | nil => exact smooth_of_forall (by simpa using hlast) next
    | cons d ds =>
      have hpair : ∀ {a b : Char}, ¬[a, b] <:+: c :: d :: ds → c = a →
          (d :: ds).head?.or next ≠ some b := by
        rintro a b hinfix rfl hb
        obtain rfl : d = b := by simpa using hb
        exact hinfix ⟨[], ds, rfl⟩
      obtain ⟨hsemi, hquote, hline, hblock⟩ := id h
      exact ⟨fun hc => hsemi (by simp [hc]), hquote c mem_cons_self, hpair hline, hpair hblock,
        ih h.tail (by simpa using hlast)⟩

end Script

open Script

/-! ### One lexeme -/

/-- Whether a piece is of a kind that the scan of a script does not know: brackets, bind parameters,
and words, which may have substitutions in them. -/
def Piece.isUnknown (p : Piece) : Bool :=
  match p.lexeme with
  | .token _ _ .quoted _ _ => p.source.head? == some '['
  | .token _ _ .param _ _ | .token _ _ .word _ _ | .token _ _ .dynamic _ _ => true
  | _ => false

def Piece.isInQuotes (p : Piece) : Bool :=
  match p.lexeme with
  | .token _ _ .quoted _ _ => p.source.head? != some '['
  | _ => false

/-- **A piece in which the scan of a script sees what the tokenizer sees.**  Inside what the scan
does not know nothing looks like a semicolon, a quote or a comment; inside quoted identifiers there
is no backslash. -/
def Piece.Quiet (p : Piece) : Prop :=
  (p.isUnknown = true → Plain p.source) ∧ (p.isInQuotes = true → '\\' ∉ p.source)

-- the characters of the text are gone through, and not all characters there are
instance (text : List Char) : Decidable (Plain text) :=
  haveI : Decidable (∀ c ∈ text, isQuote c = false) := List.decidableBAll _ _
  inferInstanceAs (Decidable (_ ∧ _ ∧ _ ∧ _))

instance (p : Piece) : Decidable p.Quiet :=
  inferInstanceAs (Decidable (_ ∧ _))

theorem stops_subset_openers : stops ⊆ openers := by decide

theorem not_mem_stops_of_continuesWord {c : Char} (h : continuesWord c) : c ∉ stops := by
  have hall : stops.all (fun d => !continuesWord d) = true := by decide +kernel
  intro hmem
  simpa [h] using all_eq_true.mp hall c hmem

theorem not_mem_stops_of_continuesNumber {c : Char} (h : continuesNumber c) : c ∉ stops := by
  have hall : stops.all (fun d => !continuesNumber d) = true := by decide +kernel
  intro hmem
  simpa [h] using all_eq_true.mp hall c hmem

theorem WordOf.getLast_not_mem_stops {next : Option Char} {source : List Char} {n : Nat}
    {literal : Bool} (h : WordOf next source n literal) : ∀ d ∈ source.getLast?, d ∉ stops := by
  induction h with
  | done => simp
  | @letter c cs n literal hc _ _ ih =>
    cases cs with
    | nil => simpa using not_mem_stops_of_continuesWord hc
    | cons d ds => simpa using ih
  | @substitution body cs n literal _ _ ih =>
    rw [← cons_append, ← cons_append, getLast?_append_cons]
    cases cs with
    | nil => simp [stops]
    | cons d ds => simpa using ih

def semicolon : Piece := ⟨[';'], .token 1 0 (.punct ';') [';'] 0⟩

theorem Spelled.eq_semicolon_or_passes {source rest : List Char} {l : Lexeme}
    (h : Spelled source rest.head? l) (hclosed : (Piece.mk source l).fault? = none)
    (hquiet : (Piece.mk source l).Quiet) : Piece.mk source l = semicolon ∨ Passes source rest ∧
      ∀ line, ∀ t ∈ (Piece.mk source l).token? line, t.isPunct ';' = false := by
  generalize hnext : rest.head? = next at h
  cases h with
  | lineEnd =>
    exact .inr ⟨(smooth_of_forall (by simp [stops]) _).passes, by simp [Piece.token?]⟩
  | @blank c _ hblank hne =>
    have hc : c ∉ stops := fun hmem =>
      not_mem_openers_of_isBlank hblank hne (stops_subset_openers hmem)
    exact .inr ⟨(smooth_of_forall (by simpa using hc) _).passes, by simp [Piece.token?]⟩
  | lineComment hbody hrest =>
    subst hnext
    exact .inr ⟨passes_lineComment hbody hrest, by simp [Piece.token?]⟩
  | @blockComment body _ hbody =>
    obtain ⟨n, hn⟩ := parts_blockComment hbody rest
    refine .inr ⟨⟨0 + n, ?_⟩, by simp [Piece.token?]⟩
    simp [parts, hn, extend_extend]
  | @string body _ hbody _ =>
    exact .inr ⟨passes_quote rfl (parts_string hbody rest), by simp [Piece.token?, Token.isPunct]⟩
  | @identifier mark body _ hmark hbody =>
    refine .inr ⟨?_, by simp [Piece.token?, Token.isPunct]⟩
    by_cases hbracket : mark = '['
    · -- brackets are plain text to the scan
      subst hbracket
      have hlast : ∀ d ∈ ('[' :: (body ++ [']'])).getLast?, d ∉ stops := by
        rw [← cons_append, getLast?_concat]
        simp [stops]
      exact (Plain.smooth (hquiet.1 rfl) hlast _).passes
    · have hclosing : closing mark = mark := if_neg hbracket
      have hquote : isQuote mark ∧ mark ≠ '\\' := by
        simp only [identifierMarks, mem_cons, not_mem_nil, or_false, hbracket] at hmark
        rcases hmark with rfl | rfl <;> decide
      have hslash : '\\' ∉ mark :: (body ++ [closing mark]) := by
        exact hquiet.2 (by simpa [Piece.isInQuotes] using hbracket)
      rw [hclosing] at hbody hslash ⊢
      exact passes_quote hquote.1 (parts_quoted hbody (by simp_all) hquote.2 rest)
  | @placeholder body _ hbody =>
    refine .inr ⟨(Plain.smooth (hquiet.1 rfl) ?_ _).passes, by simp [Piece.token?, Token.isPunct]⟩
    rw [← cons_append, ← cons_append, getLast?_concat]
    simp [stops]
  | @word _ _ n literal hstart hword =>
    subst hnext
    have hplain : Plain source := by cases literal <;> exact hquiet.1 rfl
    refine .inr ⟨(hplain.smooth hword.getLast_not_mem_stops _).passes, ?_⟩
    cases literal <;> simp [Piece.token?, Token.isPunct]
  | question =>
    exact .inr ⟨(smooth_of_forall (by simp [stops]) _).passes, by simp [Piece.token?, Token.isPunct]⟩
  | cast =>
    exact .inr ⟨(smooth_of_forall (by simp [stops]) _).passes, by simp [Piece.token?, Token.isPunct]⟩
  | @named c body _ hc hbody _ =>
    have hsource : ∀ d ∈ ':' :: c :: body, d ∉ stops := by
      refine forall_mem_cons.mpr ⟨by decide, forall_mem_cons.mpr ⟨?_, ?_⟩⟩
      · exact not_mem_stops_of_continuesWord (continuesWord_of_startsWord hc)
      · exact fun d hd => not_mem_stops_of_continuesWord (hbody d hd)
    exact .inr ⟨(smooth_of_forall hsource _).passes, by simp [Piece.token?, Token.isPunct]⟩
  | @number c body _ hc hbody _ =>
    have hsource : ∀ d ∈ c :: body, d ∉ stops := by
      refine forall_mem_cons.mpr ⟨?_, fun d hd => not_mem_stops_of_continuesNumber (hbody d hd)⟩
      exact not_mem_stops_of_continuesNumber (continuesNumber_of_isDigit hc)
    exact .inr ⟨(smooth_of_forall hsource _).passes, by simp [Piece.token?, Token.isPunct]⟩
  | @alone c _ halone =>
    subst hnext
    by_cases hsemi : c = ';'
    · subst hsemi
      exact .inl rfl
    · have hmarks := halone.notIdentifier
      simp only [identifierMarks, mem_cons, not_mem_nil, or_false, not_or] at hmarks
      have hquote : isQuote c = false := by simp [isQuote, halone.notString, hmarks]
      have hsmooth : Smooth rest.head? [c] :=
        ⟨hsemi, hquote, by simpa using halone.notLineComment, by simpa using halone.notBlockComment,
          trivial⟩
      refine .inr ⟨hsmooth.passes, ?_⟩
      cases isMark c <;> simp [Piece.token?, Token.isPunct, hsemi]
  | openComment | openString | openIdentifier | openPlaceholder | openSubstitution =>
    simp [Piece.fault?] at hclosed

/-! ### All of them -/

def semicolons (text : List Char) : List Nat :=
  ((placed text).filter (·.token.isPunct ';')).map (·.offset)

theorem Spells.cutsFrom_parts {text : List Char} {ps : List Piece} (h : Spells text ps)
    (hclosed : ∀ p ∈ ps, p.fault? = none) (hquiet : ∀ p ∈ ps, p.Quiet) (offset line : Nat) :
    cutsFrom offset (parts .plain text) =
      ((placedFrom offset line ps).filter (·.token.isPunct ';')).map (·.offset) := by
  induction h generalizing offset line with
  | done => rfl
  | @piece source rest l ps h _ ih =>
    obtain ⟨hclosed, hclosed'⟩ := forall_mem_cons.mp hclosed
    obtain ⟨hquiet, hquiet'⟩ := forall_mem_cons.mp hquiet
    have ih := ih hclosed' hquiet'
    rcases h.eq_semicolon_or_passes hclosed hquiet with heq | ⟨⟨n, hn⟩, hother⟩
    · obtain ⟨rfl, rfl⟩ := Piece.mk.inj heq
      have hcut : parts .plain ([';'] ++ rest) = ⟨[], 0⟩ :: parts .plain rest :=
        (parts_plain_cons (by simp) (by simp)).trans (if_pos rfl)
      rw [hcut, cutsFrom_cons offset _ (parts_ne_nil .plain rest)]
      exact congrArg (List.cons offset) (ih (offset + 1) line)
    · rw [hn, cutsFrom_extend, ih (offset + source.length) (line + (Piece.mk source l).lines),
        placedFrom, filter_append, map_append]
      cases htoken : (Piece.mk source l).token? line with
      | none => rfl
      | some t => simp [hother line t htoken]

/-- **Scripts are cut at the semicolons that are tokens**, and the parts with semicolons between
them are the script.  This is for scripts that are read to their end and whose pieces are quiet. -/
theorem cuts_eq_semicolons_of_quiet (text : String) (hread : (tokenize text).broken = none)
    (hquiet : ∀ p ∈ pieces text.toList, p.Quiet) :
    Script.cuts text.toList = semicolons text.toList ∧
    Text.joinWith [';'] ((parts .plain text.toList).map (·.text)) = text.toList := by
  have hspells := spells_pieces text.toList
  have hclosed := (hspells.broken_scan_eq_none_iff 1).mp hread
  exact ⟨hspells.cutsFrom_parts hclosed hquiet 0 1, joinWith_parts .plain text.toList⟩

/-- A script with quotes, comments, brackets and a placeholder. -/
def quietScript : String := "select ';' -- ;\nfrom [t] where a = #\x7bb\x7d; /* ; */ x"

/-- Of the four semicolons of the script one is a token, and there it is cut. -/
theorem quietScript_cut_at_its_semicolon :
    (tokenize quietScript).broken = none ∧ (∀ p ∈ pieces quietScript.toList, p.Quiet) ∧
    Script.cuts quietScript.toList = semicolons quietScript.toList ∧
    semicolons quietScript.toList = [39] := by
  have hread : (tokenize quietScript).broken = none := by decide
  have hquiet : ∀ p ∈ pieces quietScript.toList, p.Quiet := by decide
  exact ⟨hread, hquiet, (cuts_eq_semicolons_of_quiet quietScript hread hquiet).1, by decide⟩

/-- **A semicolon inside brackets** is no token, and the script is cut there. -/
theorem script_cut_inside_brackets :
    (tokenize "select [a;b] from t").broken = none ∧
    semicolons "select [a;b] from t".toList = [] ∧ Script.cuts "select [a;b] from t".toList = [9] := by
  decide

end AppAtlas.Sql
