import AppAtlas.Proofs.Sql.Lexemes

/-!
# White space in SQL texts

White space parts lexemes and means nothing else to the tokenizer, except inside lexemes and at the
end of a line comment.  No rule of the grammar asks which white-space character follows, or whether
one follows at all, so white space at the end of a text can be dropped.  A run of it can be made one
space, too, as long as no line comment loses its end by that.

* `tokens_append_blanks`, `tokens_trimEnd`: white space at the end changes no token.
* `squeeze`, `Spells.tokens_squeeze`: the tokens of a text in which each run of white space is one
  space.
-/

namespace AppAtlas.Sql

open List Text

variable {c b : Char} {source cs xs text : List Char} {next next' : Option Char}
  {n size lines : Nat} {literal : Bool} {sort : TokenSort}

def Token.onLine (t : Token) (line : Nat) : Token :=
  { t with line := line }

/-- Where the tokens of some pieces stand is the one thing that the line they start on says. -/
theorem onLine_readPieces (line line' : Nat) (ps : List Piece) :
    (readPieces line ps).tokens.map (·.onLine line') = ps.filterMap (·.token? line') := by
  induction ps generalizing line with
  | nil => rfl
  | cons p ps ih =>
    obtain ⟨source, l⟩ := p
    rw [readPieces, Tokens.followedBy, map_append, ih]
    cases l <;> rfl

theorem Spells.onLine_tokens {ps : List Piece} (h : Spells text ps) (line line' : Nat) :
    (scan 0 line text).tokens.map (·.onLine line') = ps.filterMap (·.token? line') := by
  rw [h.scan_eq, onLine_readPieces]

/-! ### What follows a token -/

/-- Whether a character parts tokens: white space, a parenthesis, a comma or a semicolon. -/
def partsTokens (c : Char) : Bool :=
  isBlank c || ['(', ')', ',', ';'].contains c

/-- What follows parts tokens, or nothing follows. -/
def Ends (next : Option Char) : Prop :=
  ∀ c ∈ next, partsTokens c = true

@[simp] theorem ends_some : Ends (some c) ↔ partsTokens c = true := by
  simp [Ends]

theorem partsTokens_of_isBlank (h : isBlank c) : partsTokens c := by
  simp [partsTokens, h]

/-- What holds of white space and of the four marks holds of all that parts tokens. -/
theorem of_partsTokens {p : Char → Bool} (hblank : ∀ c, isBlank c → p c)
    (hmarks : ['(', ')', ',', ';'].all p) (h : partsTokens c) : p c := by
  rcases Bool.or_eq_true_iff.mp h with hc | hc
  · exact hblank c hc
  · exact all_eq_true.mp hmarks c (contains_iff_mem.mp hc)

theorem continuesNumber_of_isBlank (h : isBlank c) : continuesNumber c = false := by
  have := of_isBlank (p := fun c => !continuesNumber c) (by decide +kernel) h
  simpa using this

theorem Ends.ne_some (h : Ends next) (hc : partsTokens c = false) : next ≠ some c := by
  rintro rfl
  rw [h c rfl] at hc
  cases hc

theorem Ends.continuesWord (h : Ends next) : ∀ c ∈ next, continuesWord c = false := by
  intro c hc
  have := of_partsTokens (p := fun c => !Sql.continuesWord c)
    (fun c hc => by simp [continuesWord_of_isBlank hc]) (by decide) (h c hc)
  simpa using this

theorem Ends.continuesNumber (h : Ends next) : ∀ c ∈ next, continuesNumber c = false := by
  intro c hc
  have := of_partsTokens (p := fun c => !Sql.continuesNumber c)
    (fun c hc => by simp [continuesNumber_of_isBlank hc]) (by decide) (h c hc)
  simpa using this

theorem WordOf.of_ends (h' : Ends next') (h : WordOf next source n literal) :
    WordOf next' source n literal := by
  induction h with
  | done => exact .done h'.continuesWord
  | @letter c cs n literal hc hplain _ ih =>
    refine .letter hc ?_ ih
    intro hdollar
    cases cs with
    | nil => exact h'.ne_some (by decide)
    | cons d ds => exact hplain hdollar
  | substitution hbody _ ih => exact .substitution hbody ih

theorem Alone.of_ends (h' : Ends next') (h : Alone c next) : Alone c next' where
  notBlank := h.notBlank
  notLineComment := fun _ => h'.ne_some (by decide)
  notBlockComment := fun _ => h'.ne_some (by decide)
  notString := h.notString
  notIdentifier := h.notIdentifier
  notPlaceholder := fun _ => h'.ne_some (by decide)
  notWord := h.notWord
  notSubstitution := fun _ => h'.ne_some (by decide)
  notParam := h.notParam
  notCast := fun _ => h'.ne_some (by decide)
  notNamed := by
    intro _ d hd
    rw [← Bool.not_eq_true]
    intro hstart
    exact Bool.false_ne_true ((h'.continuesWord d hd).symm.trans (continuesWord_of_startsWord hstart))
  notNumber := h.notNumber

/-- **A token is one before what parts tokens, and before the end.** -/
theorem Spelled.of_ends (h' : Ends next') {fragments : Nat}
    (h : Spelled source next (.token size lines sort text fragments)) :
    Spelled source next' (.token size lines sort text fragments) := by
  cases h with
  | string hbody _ => exact .string hbody (h'.ne_some (by decide))
  | identifier hmark hbody => exact .identifier hmark hbody
  | placeholder hbody => exact .placeholder hbody
  | word hstart hword => exact .word hstart (hword.of_ends h')
  | question => exact .question
  | cast => exact .cast
  | named hc hbody _ => exact .named hc hbody h'.continuesWord
  | number hc hbody _ => exact .number hc hbody h'.continuesNumber
  | alone halone => exact .alone (halone.of_ends h')

/-! ### The end of a text -/

theorem OpenString.concat (h : OpenString cs) (hb : isBlank b) : OpenString (cs ++ [b]) := by
  have hslash : b ≠ '\\' := by rintro rfl; cases hb
  have hquote : b ≠ '\'' := by rintro rfl; cases hb
  obtain ⟨body, hbody, rfl | rfl⟩ := h
  · exact ⟨cs ++ [b], hbody.append (.other hslash hquote .nil), .inl rfl⟩
  · exact ⟨body ++ ['\\', b], hbody.append (.escaped .nil), .inl (by simp)⟩

theorem commentSize?_concat (h : commentSize? cs = none) (hb : isBlank b) :
    commentSize? (cs ++ [b]) = none := by
  have hslash : b ≠ '/' := by rintro rfl; cases hb
  induction cs with
  | nil => simp [commentSize?]
  | cons c cs ih =>
    rw [commentSize?_cons_eq_none] at h
    rw [cons_append, commentSize?_cons_eq_none]
    refine ⟨?_, ih h.2⟩
    cases cs with
    | nil => simp [hslash]
    | cons d ds => exact h.1

theorem not_mem_concat_blank (h : c ∉ cs) (hb : isBlank b) (hc : isBlank c = false) :
    c ∉ cs ++ [b] := by
  simp only [mem_append, mem_singleton, not_or]
  refine ⟨h, ?_⟩
  rintro rfl
  rw [hb] at hc
  cases hc

theorem OpenWord.concat (h : OpenWord source n) (hb : isBlank b) : OpenWord (source ++ [b]) n := by
  induction h with
  | start hbody => exact .start (not_mem_concat_blank hbody hb (by decide))
  | @letter c cs n hc hplain hcs ih =>
    refine .letter hc ?_ ih
    cases cs with
    | nil => cases hcs
    | cons d ds => exact hplain
  | @substitution body cs n hbody _ ih =>
    have := OpenWord.substitution hbody ih
    simpa using this

theorem not_isBlank_closing {mark : Char} (h : mark ∈ identifierMarks) :
    isBlank (closing mark) = false := by
  simp only [identifierMarks, mem_cons, not_mem_nil, or_false] at h
  rcases h with rfl | rfl | rfl <;> decide

theorem spelled_blank (hb : isBlank b) (next : Option Char) :
    ∃ lines, Spelled [b] next (.gap 1 lines) := by
  by_cases hline : b = '\n'
  · subst hline
    exact ⟨1, .lineEnd⟩
  · exact ⟨0, .blank hb hline⟩

theorem Spelled.concat_of_broken {fault : Fault} (h : Spelled source none (.broken fault n))
    (hb : isBlank b) : Spelled (source ++ [b]) none (.broken fault n) := by
  cases h with
  | openComment hbody => exact .openComment (commentSize?_concat hbody hb)
  | openString hbody => exact .openString (hbody.concat hb)
  | openIdentifier hmark hbody =>
    exact .openIdentifier hmark (not_mem_concat_blank hbody hb (not_isBlank_closing hmark))
  | openPlaceholder hbody => exact .openPlaceholder (not_mem_concat_blank hbody hb (by decide))
  | openSubstitution hstart hword => exact .openSubstitution (hstart.append _) (hword.concat hb)

theorem Spelled.concat_of_gap (h : Spelled source none (.gap size lines)) (b : Char) :
    Spelled source (some b) (.gap size lines) ∨ ∃ n, Spelled (source ++ [b]) none (.gap n 0) := by
  cases h with
  | lineEnd => exact .inl .lineEnd
  | blank hc hne => exact .inl (.blank hc hne)
  | @lineComment body _ hbody _ =>
    by_cases hline : b = '\n'
    · exact .inl (.lineComment hbody (by simpa using hline))
    · have hconcat : '\n' ∉ body ++ [b] := by simpa using ⟨hbody, Ne.symm hline⟩
      exact .inr ⟨_, .lineComment hconcat (by simp)⟩
  | blockComment hbody => exact .inl (.blockComment hbody)

theorem tokens_blank (hb : isBlank b) (line : Nat) (rest : List Char) :
    ∃ line', (scan 0 line (b :: rest)).tokens = (scan 0 line' rest).tokens := by
  obtain ⟨lines, hgap⟩ := spelled_blank hb rest.head?
  exact ⟨_, (hgap.scan_append line).1⟩

section

variable (text : List Char)

/-- What parts tokens is read for itself behind a text, unless the text ends in a line comment. -/
theorem tokens_concat (hb : partsTokens b) {line : Nat}
    (hclosed : isBlank b ∨ (scan 0 line text).broken = none) :
    (scan 0 line (text ++ [b])).tokens = (scan 0 line text).tokens ∨
      ∃ line', (scan 0 line (text ++ [b])).tokens =
        (scan 0 line text).tokens ++ (scan 0 line' [b]).tokens := by
  have hspells := spells_pieces text
  generalize pieces text = ps at hspells
  induction hspells generalizing line with
  | done => exact .inr ⟨line, rfl⟩
  | @piece source rest l ps h _ ih =>
    rw [(h.scan_append line).2, Option.or_eq_none_iff] at hclosed
    rw [append_assoc, (h.scan_append line).1]
    -- only the last lexeme sees what is put behind the text
    cases rest with
    | cons d ds =>
      have h' : Spelled source (d :: ds ++ [b]).head? l := h
      rw [(h'.scan_append line).1]
      rcases ih (hclosed.imp_right And.right) with htokens | ⟨line', htokens⟩
      · exact .inl (congrArg _ htokens)
      · exact .inr ⟨line', by rw [htokens, append_assoc]⟩
    | nil =>
      have hkept (h' : Spelled source [b].head? l) : ∃ line',
          (scan 0 line (source ++ [b])).tokens =
            ((Piece.mk source l).token? line).toList ++ (scan 0 line' [b]).tokens :=
        ⟨_, (h'.scan_append line).1⟩
      have htaken {l' : Lexeme} (h' : Spelled (source ++ [b]) ([] : List Char).head? l') :
          (scan 0 line (source ++ [b])).tokens =
            ((Piece.mk (source ++ [b]) l').token? line).toList := by
        rw [← append_nil (source ++ [b]), (h'.scan_append line).1, append_nil]
        exact append_nil _
      rw [nil_append, scan, append_nil]
      cases l with
      | token => exact .inr (hkept (h.of_ends (ends_some.mpr hb)))
      | gap =>
        rcases h.concat_of_gap b with h' | ⟨n, h'⟩
        · exact .inr (hkept h')
        · exact .inl (htaken h')
      | broken =>
        rcases hclosed with hblank | hclosed
        · exact .inl (htaken (h.concat_of_broken hblank))
        · cases hclosed.1

theorem tokens_concat_blank (hb : isBlank b) (line : Nat) :
    (scan 0 line (text ++ [b])).tokens = (scan 0 line text).tokens := by
  rcases tokens_concat text (partsTokens_of_isBlank hb) (.inl hb) with htokens | ⟨line', htokens⟩
  · exact htokens
  · obtain ⟨_, hblank⟩ := tokens_blank hb line' []
    rw [htokens, hblank]
    exact append_nil _

/-- **White space at the end of a text changes no token.** -/
theorem tokens_append_blanks {blanks : List Char} (h : ∀ b ∈ blanks, isBlank b) (line : Nat) :
    (scan 0 line (text ++ blanks)).tokens = (scan 0 line text).tokens := by
  induction blanks generalizing text with
  | nil => rw [append_nil]
  | cons b blanks ih =>
    obtain ⟨hb, hblanks⟩ := forall_mem_cons.mp h
    rw [append_cons, ih _ hblanks, tokens_concat_blank text hb]

theorem exists_trimEnd : ∃ blanks, text = trimEnd text ++ blanks ∧ ∀ b ∈ blanks, isBlank b := by
  refine ⟨(text.reverse.takeWhile isBlank).reverse, ?_, ?_⟩
  · rw [trimEnd, dropEnd, ← reverse_append, takeWhile_append_dropWhile,
      reverse_reverse]
  · intro b hb
    exact mem_takeWhile_imp (mem_reverse.mp hb)

theorem tokens_trimEnd (line : Nat) :
    (scan 0 line (trimEnd text)).tokens = (scan 0 line text).tokens := by
  obtain ⟨blanks, htext, hblanks⟩ := exists_trimEnd text
  conv_rhs => rw [htext]
  exact (tokens_append_blanks (trimEnd text) hblanks line).symm

end

/-! ### Runs of white space -/

/-- A text with each run of white space made one space; if white space stands before the text, a run
at its start is dropped. -/
def squeeze (blankBefore : Bool) : List Char → List Char
  | [] => []
  | c :: cs =>
    if isBlank c then (if blankBefore then [] else [' ']) ++ squeeze true cs
    else c :: squeeze false cs

theorem squeeze_cons (hc : isBlank c = false) (b : Bool) (cs : List Char) :
    squeeze b (c :: cs) = c :: squeeze false cs := by
  rw [squeeze, if_neg (by simp [hc])]

theorem squeeze_append_cons (b : Bool) (xs : List Char) (hc : isBlank c = false)
    (ys : List Char) : squeeze b (xs ++ c :: ys) = squeeze b xs ++ c :: squeeze false ys := by
  induction xs generalizing b with
  | nil => exact squeeze_cons hc b ys
  | cons x xs ih =>
    rw [cons_append, squeeze, squeeze]
    split <;> simp [ih]

/-- No white space stands at the end. -/
def Inked (xs : List Char) : Prop :=
  ∀ d ∈ xs.getLast?, isBlank d = false

theorem Inked.cons {c : Char} (hc : isBlank c = false) {cs : List Char} (h : Inked cs) :
    Inked (c :: cs) := by
  intro d hd
  rw [getLast?_cons] at hd
  cases hlast : cs.getLast? with
  | none =>
    obtain rfl : c = d := by simpa [hlast] using hd
    exact hc
  | some e =>
    obtain rfl : e = d := by simpa [hlast] using hd
    exact h e hlast

theorem Inked.append_cons (h : Inked (c :: cs)) (xs : List Char) : Inked (xs ++ c :: cs) := by
  intro d hd
  rw [getLast?_append_cons] at hd
  exact h d hd

theorem inked_nil : Inked [] := by
  simp [Inked]

theorem inked_of_forall (h : ∀ c ∈ xs, isBlank c = false) : Inked xs :=
  fun d hd => h d (mem_of_getLast? hd)

theorem squeeze_append (h : Inked xs) (ys : List Char) :
    squeeze false (xs ++ ys) = squeeze false xs ++ squeeze false ys := by
  rcases eq_nil_or_concat' xs with rfl | ⟨init, d, rfl⟩
  · rfl
  · have hd : isBlank d = false := h d (by simp)
    rw [append_assoc, singleton_append, squeeze_append_cons false init hd,
      squeeze_append_cons false init hd]
    simp [squeeze]

theorem squeeze_of_forall (h : ∀ c ∈ xs, isBlank c = false) : squeeze false xs = xs := by
  induction xs with
  | nil => rfl
  | cons x xs ih =>
    obtain ⟨hx, hxs⟩ := forall_mem_cons.mp h
    rw [squeeze_cons hx, ih hxs]

theorem mem_of_mem_squeeze {b : Bool} (h : c ∈ squeeze b xs) (hc : c ≠ ' ') : c ∈ xs := by
  induction xs generalizing b with
  | nil => cases h
  | cons x xs ih =>
    rw [squeeze] at h
    split at h
    · rcases mem_append.mp h with h | h
      · cases b <;> simp_all
      · exact mem_cons_of_mem x (ih h)
    · rcases mem_cons.mp h with rfl | h
      · exact mem_cons_self
      · exact mem_cons_of_mem x (ih h)

theorem newline_not_mem_squeeze (b : Bool) (xs : List Char) : '\n' ∉ squeeze b xs := by
  induction xs generalizing b with
  | nil => exact not_mem_nil
  | cons x xs ih =>
    rw [squeeze]
    split
    · cases b <;> simp [ih]
    · next hx =>
      simp only [mem_cons, not_or, ih, not_false_eq_true, and_true]
      rintro rfl
      exact hx (by decide)

theorem head?_squeeze (xs : List Char) :
    (squeeze false xs).head? = xs.head? ∨ Ends xs.head? ∧ Ends (squeeze false xs).head? := by
  cases xs with
  | nil => exact .inl rfl
  | cons x xs =>
    by_cases hx : isBlank x
    · refine .inr ⟨ends_some.mpr (partsTokens_of_isBlank hx), ?_⟩
      rw [squeeze, if_pos hx]
      exact ends_some.mpr (by decide)
    · rw [squeeze, if_neg hx]
      exact .inl rfl

theorem StringBody.squeeze {body : List Char} (h : StringBody body) (b : Bool) :
    StringBody (squeeze b body) := by
  induction h generalizing b with
  | nil => exact .nil
  | @escaped c cs _ ih =>
    -- the white space behind a backslash becomes a space, which the backslash then escapes
    rw [squeeze_cons (by decide), Sql.squeeze]
    split
    · exact .escaped (ih true)
    · exact .escaped (ih false)
  | doubled _ ih =>
    rw [squeeze_cons (by decide), squeeze_cons (by decide)]
    exact .doubled (ih false)
  | @other c cs hslash hquote _ ih =>
    rw [Sql.squeeze]
    split
    · cases b
      · exact .other (by decide) (by decide) (ih true)
      · exact ih true
    · exact .other hslash hquote (ih false)

theorem commentSize?_squeeze (h : commentSize? cs = none) (b : Bool) :
    commentSize? (squeeze b cs) = none := by
  induction cs generalizing b with
  | nil => rfl
  | cons c cs ih =>
    rw [commentSize?_cons_eq_none] at h
    rw [squeeze]
    split
    · cases b
      · rw [if_neg (by decide), singleton_append, commentSize?_cons_eq_none]
        exact ⟨by simp, ih h.2 true⟩
      · exact ih h.2 true
    · rw [commentSize?_cons_eq_none]
      refine ⟨?_, ih h.2 false⟩
      rintro ⟨hc, hslash⟩
      rcases head?_squeeze cs with hhead | ⟨-, hends⟩
      · exact h.1 ⟨hc, hhead ▸ hslash⟩
      · exact hends.ne_some (by decide) hslash

theorem OpenString.squeeze (h : OpenString cs) (b : Bool) : OpenString (squeeze b cs) := by
  obtain ⟨body, hbody, rfl | rfl⟩ := h
  · exact ⟨_, hbody.squeeze b, .inl rfl⟩
  · exact ⟨_, hbody.squeeze b, .inr (squeeze_append_cons b body (by decide) [])⟩

theorem not_mem_squeeze {b : Bool} (h : c ∉ xs) (hc : isBlank c = false) : c ∉ squeeze b xs := by
  intro hmem
  refine h (mem_of_mem_squeeze hmem ?_)
  rintro rfl
  cases hc

theorem squeeze_substitution (body cs : List Char) :
    squeeze false ('$' :: '\x7b' :: (body ++ '\x7d' :: cs)) =
      '$' :: '\x7b' :: (squeeze false body ++ '\x7d' :: squeeze false cs) := by
  rw [squeeze_cons (by decide), squeeze_cons (by decide), squeeze_append_cons _ _ (by decide)]

theorem squeeze_head?_ne (hc : partsTokens c = false) (h : xs.head? ≠ some c) :
    (squeeze false xs).head? ≠ some c := by
  rcases head?_squeeze xs with hhead | ⟨-, hends⟩
  · rwa [hhead]
  · exact hends.ne_some hc

theorem WordOf.squeeze (h : WordOf next source n literal) :
    WordOf next (squeeze false source) n literal := by
  induction h with
  | done hnext => exact .done hnext
  | @letter c cs n literal hc hplain _ ih =>
    rw [squeeze_cons (not_isBlank_of_continuesWord hc)]
    refine .letter hc ?_ ih
    intro hdollar
    cases cs with
    | nil => exact hplain hdollar
    | cons d ds =>
      cases hd : isBlank d with
      | true =>
        rw [Sql.squeeze, if_pos hd]
        simp
      | false =>
        rw [squeeze_cons hd]
        exact hplain hdollar
  | substitution hbody _ ih =>
    rw [squeeze_substitution]
    exact .substitution (not_mem_squeeze hbody (by decide)) ih

theorem OpenWord.squeeze (h : OpenWord source n) : OpenWord (squeeze false source) n := by
  induction h with
  | start hbody =>
    rw [squeeze_cons (by decide), squeeze_cons (by decide)]
    exact .start (not_mem_squeeze hbody (by decide))
  | letter hc hplain _ ih =>
    rw [squeeze_cons (not_isBlank_of_continuesWord hc)]
    exact .letter hc (fun hdollar => squeeze_head?_ne (by decide) (hplain hdollar)) ih
  | substitution hbody _ ih =>
    rw [squeeze_substitution]
    exact .substitution (not_mem_squeeze hbody (by decide)) ih

theorem StartsWord.squeeze (h : StartsWord source) : StartsWord (squeeze false source) := by
  rcases h with h | ⟨rest, rfl⟩
  · obtain ⟨c, hc, hstart⟩ := Option.any_eq_true _ _ |>.mp h
    obtain ⟨cs, rfl⟩ := head?_eq_some_iff.mp hc
    rw [squeeze_cons (not_isBlank_of_startsWord hstart)]
    exact .inl h
  · refine .inr ⟨squeeze false rest, ?_⟩
    change _ = squeeze false ('$' :: '\x7b' :: rest)
    rw [squeeze_cons (by decide), squeeze_cons (by decide)]
    rfl

theorem WordOf.inked (h : WordOf next source n literal) : Inked source := by
  induction h with
  | done => exact inked_nil
  | letter hc _ _ ih => exact ih.cons (not_isBlank_of_continuesWord hc)
  | @substitution body cs n literal _ _ ih =>
    have hclose : Inked ('\x7d' :: cs) := ih.cons (by decide)
    exact hclose.append_cons ('$' :: '\x7b' :: body)

theorem not_isBlank_of_continuesNumber (h : continuesNumber c) : isBlank c = false := by
  rw [← Bool.not_eq_true]
  intro hblank
  exact Bool.false_ne_true ((continuesNumber_of_isBlank hblank).symm.trans h)

theorem not_isBlank_of_mem_identifierMarks {mark : Char} (h : mark ∈ identifierMarks) :
    isBlank mark = false := by
  simp only [identifierMarks, mem_cons, not_mem_nil, or_false] at h
  rcases h with rfl | rfl | rfl <;> decide

theorem newlines_squeeze (b : Bool) (xs : List Char) : newlines (squeeze b xs) = 0 :=
  count_eq_zero.mpr (newline_not_mem_squeeze b xs)

/-- **A token stays one when the white space inside it is squeezed.** -/
theorem Spelled.squeeze_of_token (h : Spelled source next (.token size lines sort text n)) :
    Inked source ∧ ∃ size', Spelled (squeeze false source) next
      (.token size' 0 sort (squeeze false text) n) := by
  cases h with
  | string hbody hnext =>
    refine ⟨(inked_nil.cons (by decide)).append_cons (_ :: _), ?_⟩
    have hstring := Spelled.string (hbody.squeeze false) hnext
    rw [newlines_squeeze] at hstring
    rw [squeeze_cons (by decide), squeeze_append_cons _ _ (by decide)]
    exact ⟨_, hstring⟩
  | identifier hmark hbody =>
    have hclose := not_isBlank_closing hmark
    refine ⟨(inked_nil.cons hclose).append_cons (_ :: _), ?_⟩
    have hquoted : Spelled _ next _ :=
      .identifier hmark (not_mem_squeeze (b := false) hbody hclose)
    rw [newlines_squeeze] at hquoted
    rw [squeeze_cons (not_isBlank_of_mem_identifierMarks hmark), squeeze_append_cons _ _ hclose]
    exact ⟨_, hquoted⟩
  | @placeholder body _ hbody =>
    refine ⟨(inked_nil.cons (by decide)).append_cons ('#' :: '\x7b' :: body), ?_⟩
    rw [squeeze_cons (by decide), squeeze_cons (by decide), squeeze_append_cons _ _ (by decide)]
    exact ⟨_, .placeholder (not_mem_squeeze hbody (by decide))⟩
  | word hstart hword => exact ⟨hword.inked, _, .word hstart.squeeze hword.squeeze⟩
  | question => exact ⟨inked_nil.cons (by decide), 1, .question⟩
  | cast => exact ⟨(inked_nil.cons (by decide)).cons (by decide), 2, .cast⟩
  | named hc hbody hnext =>
    have hink : ∀ d ∈ ':' :: _ :: _, isBlank d = false :=
      forall_mem_cons.mpr ⟨by decide, forall_mem_cons.mpr
        ⟨not_isBlank_of_startsWord hc, fun d hd => not_isBlank_of_continuesWord (hbody d hd)⟩⟩
    rw [squeeze_of_forall hink]
    exact ⟨inked_of_forall hink, _, .named hc hbody hnext⟩
  | number hc hbody hnext =>
    have hink : ∀ d ∈ _ :: _, isBlank d = false :=
      forall_mem_cons.mpr ⟨(plain_of_isDigit hc).1,
        fun d hd => not_isBlank_of_continuesNumber (hbody d hd)⟩
    rw [squeeze_of_forall hink]
    exact ⟨inked_of_forall hink, _, .number hc hbody hnext⟩
  | alone halone =>
    rw [squeeze_cons halone.notBlank]
    exact ⟨inked_nil.cons halone.notBlank, 1, .alone halone⟩

theorem Spelled.squeeze_of_broken {fault : Fault} (h : Spelled source none (.broken fault n)) :
    Spelled (squeeze false source) none (.broken fault n) := by
  cases h with
  | openComment hbody =>
    rw [squeeze_cons (by decide), squeeze_cons (by decide)]
    exact .openComment (commentSize?_squeeze hbody false)
  | openString hbody =>
    rw [squeeze_cons (by decide)]
    exact .openString (hbody.squeeze false)
  | openIdentifier hmark hbody =>
    rw [squeeze_cons (not_isBlank_of_mem_identifierMarks hmark)]
    exact .openIdentifier hmark (not_mem_squeeze hbody (not_isBlank_closing hmark))
  | openPlaceholder hbody =>
    rw [squeeze_cons (by decide), squeeze_cons (by decide)]
    exact .openPlaceholder (not_mem_squeeze hbody (by decide))
  | openSubstitution hstart hword => exact .openSubstitution hstart.squeeze hword.squeeze

/-- A token with the white space inside it squeezed. -/
def Token.squeezed (t : Token) : Token :=
  { t with text := onString (squeeze false) t.text }

def Piece.isLineComment (p : Piece) : Bool :=
  ['-', '-'].isPrefixOf p.source

theorem tokens_space (line : Nat) (rest : List Char) :
    (scan 0 line (' ' :: rest)).tokens = (scan 0 line rest).tokens := by
  have hspace : Spelled [' '] rest.head? (.gap 1 0) := .blank (by decide) (by decide)
  exact (hspace.scan_append line).1

theorem tokens_squeeze_true (text : List Char) (line : Nat) :
    (scan 0 line (squeeze true text)).tokens = (scan 0 line (squeeze false text)).tokens := by
  cases text with
  | nil => rfl
  | cons c cs =>
    cases hc : isBlank c with
    | false => rw [squeeze_cons hc, squeeze_cons hc]
    | true =>
      rw [squeeze, squeeze, if_pos hc, if_pos hc]
      exact (tokens_space line _).symm

/-- What is squeezed stands on one line, so a line comment takes all of the rest. -/
theorem tokens_squeeze_lineComment (rest : List Char) (line : Nat) :
    (scan 0 line (squeeze false ('-' :: '-' :: rest))).tokens = [] := by
  have hrest := newline_not_mem_squeeze false rest
  have hcomment : Spelled ('-' :: '-' :: squeeze false rest) ([] : List Char).head? _ :=
    .lineComment hrest (by simp)
  have hscan := (hcomment.scan_append line).1
  rw [append_nil] at hscan
  rw [squeeze_cons (by decide), squeeze_cons (by decide), hscan]
  rfl

theorem tokens_squeeze_blockComment {body : List Char} (h : commentSize? (body ++ ['*']) = none)
    (rest : List Char) (line : Nat) :
    (scan 0 line (squeeze false ('/' :: '*' :: (body ++ ['*', '/']) ++ rest))).tokens =
      (scan 0 line (squeeze false rest)).tokens := by
  have hbody := commentSize?_squeeze h false
  rw [squeeze_append_cons _ _ (by decide)] at hbody
  have hcomment : Spelled _ (squeeze false rest).head? _ := .blockComment hbody
  have hink : Inked ('/' :: '*' :: (body ++ ['*', '/'])) :=
    ((inked_nil.cons (by decide)).cons (by decide)).append_cons ('/' :: '*' :: body)
  have hsource : squeeze false ('/' :: '*' :: (body ++ ['*', '/'])) =
      '/' :: '*' :: (squeeze false body ++ ['*', '/']) := by
    rw [squeeze_cons (by decide), squeeze_cons (by decide), squeeze_append_cons _ _ (by decide),
      squeeze_cons (by decide), squeeze]
  rw [squeeze_append hink, hsource, (hcomment.scan_append line).1]
  simp [Piece.token?, Piece.lines, newlines_squeeze]

theorem Spelled.tokens_squeeze {rest : List Char}
    (h : Spelled source rest.head? (.token size lines sort text n)) (line : Nat) :
    (scan 0 line (squeeze false (source ++ rest))).tokens =
      ⟨sort, String.ofList (squeeze false text), n != 0, line⟩ ::
        (scan 0 line (squeeze false rest)).tokens := by
  obtain ⟨hink, size', htoken⟩ := h.squeeze_of_token
  -- what follows the token may be other white space now, and tokens do not tell it apart
  have hnext : Spelled (squeeze false source) (squeeze false rest).head?
      (.token size' 0 sort (squeeze false text) n) := by
    rcases head?_squeeze rest with hhead | ⟨-, hends⟩
    · rwa [hhead]
    · exact htoken.of_ends hends
  rw [squeeze_append hink]
  exact (hnext.scan_append line).1

theorem Spelled.tokens_squeeze_of_gap
    (h : Spelled source next (.gap size lines)) (hline : ¬['-', '-'] <+: source) (rest : List Char)
    (line : Nat) : (scan 0 line (squeeze false (source ++ rest))).tokens =
      (scan 0 line (squeeze false rest)).tokens := by
  have hblank : ∀ c, isBlank c →
      (scan 0 line (squeeze false (c :: rest))).tokens = (scan 0 line (squeeze false rest)).tokens := by
    intro c hc
    rw [squeeze, if_pos hc, ← tokens_squeeze_true]
    exact tokens_space line _
  cases h with
  | lineEnd => exact hblank '\n' (by decide)
  | blank hc _ => exact hblank _ hc
  | lineComment => exact absurd ⟨_, rfl⟩ hline
  | blockComment hbody => exact tokens_squeeze_blockComment hbody rest line

/-- **The tokens of a squeezed text** are those before the first line comment, each squeezed. -/
theorem Spells.tokens_squeeze {ps : List Piece} (h : Spells text ps)
    (line : Nat) : (scan 0 line (squeeze false text)).tokens =
      ((ps.takeWhile (!·.isLineComment)).filterMap (·.token? line)).map Token.squeezed := by
  induction h with
  | done => rfl
  | @piece source rest l ps h hrest ih =>
    by_cases hline : ['-', '-'] <+: source
    · have hcomment : (Piece.mk source l).isLineComment := isPrefixOf_iff_prefix.mpr hline
      obtain ⟨ds, rfl⟩ := hline
      rw [takeWhile_cons_of_neg (by simpa using hcomment)]
      exact tokens_squeeze_lineComment (ds ++ rest) line
    have hother : (Piece.mk source l).isLineComment = false := by
      rw [← Bool.not_eq_true]
      exact fun hcomment => hline (List.isPrefixOf_iff_prefix.mp hcomment)
    rw [takeWhile_cons_of_pos (by simp [hother])]
    cases l with
    | gap size lines =>
      rw [h.tokens_squeeze_of_gap hline, ih]
      rfl
    | token size lines sort text n =>
      rw [h.tokens_squeeze, ih]
      simp [Piece.token?, Token.squeezed, onString]
    | broken fault n =>
      obtain rfl := h.rest_eq_nil_of_broken
      have hbroken : Spelled (squeeze false source) ([] : List Char).head? _ := h.squeeze_of_broken
      have hscan := (hbroken.scan_append line).1
      rw [append_nil] at hscan ⊢
      rw [hscan, ← hrest.pieces_eq]
      rfl

end AppAtlas.Sql
