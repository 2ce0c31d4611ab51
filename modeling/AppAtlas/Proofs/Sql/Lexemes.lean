import AppAtlas.Sql.Token
import Mathlib.Data.List.Infix
import Mathlib.Data.List.TakeWhile

/-!
# How SQL texts are spelled

A grammar for what the tokenizer reads, said without it.  A lexeme is known by its characters and by
the one character that follows: no rule looks further ahead.  So a text is spelled piece by piece,
and facts about whole texts are inductions over pieces with one case for each rule of the grammar.

* `readAsSpelled`, `Spelled.lexeme_eq`: what `lexeme` reads is spelled so, and what is spelled so is
  what `lexeme` reads.
* `Spells`, `spells_pieces`, `Spells.pieces_eq`: each text is spelled in exactly one way.
* `placed`, `Spells.tokens_scan`: the tokens of a text with the places where they start.
-/

namespace AppAtlas.Text

/-- The code points of white space. -/
def blankCodes : List Nat :=
  [0x20, 0x09, 0x0A, 0x0B, 0x0C, 0x0D, 0x85, 0xA0, 0x1680, 0x2000, 0x2001, 0x2002, 0x2003, 0x2004,
    0x2005, 0x2006, 0x2007, 0x2008, 0x2009, 0x200A, 0x2028, 0x2029, 0x202F, 0x205F, 0x3000]

/-- **What holds of each white-space character one by one holds of all of them.** -/
theorem of_isBlank {p : Char → Bool} (hp : blankCodes.all (fun n => p (Char.ofNat n)) = true)
    {c : Char} (h : isBlank c) : p c := by
  have hmem : c.toNat ∈ blankCodes := by
    simp only [isBlank, Bool.or_eq_true, Bool.and_eq_true, beq_iff_eq, decide_eq_true_eq] at h
    simp only [blankCodes, List.mem_cons, List.not_mem_nil, or_false]
    omega
  have hcode := List.all_eq_true.mp hp c.toNat hmem
  rwa [Char.ofNat_toNat] at hcode

end AppAtlas.Text

namespace AppAtlas.Sql

open List Text

/-! ### Characters -/

/-- Characters that open a lexeme of their own. -/
def openers : List Char :=
  ['\n', '-', '/', '\'', '"', '\x60', '[', '#', '$', '?', ':', '*', ';', '\\', ']', '\x7b', '\x7d']

set_option maxRecDepth 4000 in
theorem continuesWord_of_isBlank {c : Char} (h : isBlank c) : continuesWord c = false := by
  have := of_isBlank (p := fun c => !continuesWord c) (by decide +kernel) h
  simpa using this

theorem not_isBlank_of_continuesWord {c : Char} (h : continuesWord c) : isBlank c = false := by
  rw [← Bool.not_eq_true]
  intro hblank
  exact Bool.false_ne_true ((continuesWord_of_isBlank hblank).symm.trans h)

theorem not_mem_openers_of_isBlank {c : Char} (h : isBlank c) (hne : c ≠ '\n') : c ∉ openers := by
  have := of_isBlank (p := fun c => c == '\n' || !openers.contains c) (by decide +kernel) h
  simpa [hne] using this

theorem continuesWord_of_startsWord {c : Char} (h : startsWord c) : continuesWord c := by
  simp only [startsWord, continuesWord, isLetterOrNumber, Bool.or_eq_true] at h ⊢
  tauto

theorem not_isBlank_of_startsWord {c : Char} (h : startsWord c) : isBlank c = false :=
  not_isBlank_of_continuesWord (continuesWord_of_startsWord h)

/-! ### Comments, strings, marks -/

theorem commentSize?_cons_eq_none {c : Char} {cs : List Char} :
    commentSize? (c :: cs) = none ↔ ¬(c = '*' ∧ cs.head? = some '/') ∧ commentSize? cs = none := by
  rw [commentSize?]
  split <;> simp_all

/-- **A block comment ends at the first star that a slash follows.** -/
theorem commentSize?_append {body : List Char} (h : commentSize? (body ++ ['*']) = none)
    (rest : List Char) : commentSize? (body ++ '*' :: '/' :: rest) = some (body.length + 2) := by
  induction body with
  | nil => simp [commentSize?]
  | cons c body ih =>
    rw [cons_append, commentSize?_cons_eq_none] at h
    have hopen : ¬(c = '*' ∧ (body ++ '*' :: '/' :: rest).head? = some '/') := by
      cases body <;> simp_all
    rw [cons_append, commentSize?, if_neg hopen, ih h.2]
    simp

theorem exists_of_commentSize? {cs : List Char} {n : Nat} (h : commentSize? cs = some n) :
    ∃ body rest, cs = body ++ '*' :: '/' :: rest ∧ n = body.length + 2 ∧
      commentSize? (body ++ ['*']) = none := by
  induction cs generalizing n with
  | nil => simp [commentSize?] at h
  | cons c cs ih =>
    rw [commentSize?] at h
    split at h
    · next hend =>
      obtain ⟨rfl, hslash⟩ := hend
      obtain ⟨rest, rfl⟩ := head?_eq_some_iff.mp hslash
      exact ⟨[], rest, rfl, (Option.some.inj h).symm, by simp [commentSize?]⟩
    · next hend =>
      obtain ⟨m, hm, rfl⟩ := Option.map_eq_some_iff.mp h
      obtain ⟨body, rest, rfl, rfl, hbody⟩ := ih hm
      refine ⟨c :: body, rest, rfl, by simp, ?_⟩
      rw [cons_append, commentSize?_cons_eq_none]
      refine ⟨?_, hbody⟩
      cases body <;> simp_all

/-- The characters of a string between its quotes. -/
inductive StringBody : List Char → Prop
  | nil : StringBody []
  | escaped {c : Char} {cs : List Char} (h : StringBody cs) : StringBody ('\\' :: c :: cs)
  | doubled {cs : List Char} (h : StringBody cs) : StringBody ('\'' :: '\'' :: cs)
  | other {c : Char} {cs : List Char} (hslash : c ≠ '\\') (hquote : c ≠ '\'') (h : StringBody cs) :
    StringBody (c :: cs)

namespace StringBody

theorem append {a b : List Char} (ha : StringBody a) (hb : StringBody b) : StringBody (a ++ b) := by
  induction ha with
  | nil => exact hb
  | escaped _ ih => exact .escaped ih
  | doubled _ ih => exact .doubled ih
  | other hslash hquote _ ih => exact .other hslash hquote ih

theorem stringSize?_append {body : List Char} (h : StringBody body) (rest : List Char) :
    stringSize? (body ++ rest) = (stringSize? rest).map (· + body.length) := by
  induction h with
  | nil => simp
  | escaped _ ih => simp [stringSize?, ih, Function.comp_def, Nat.add_assoc]
  | doubled _ ih => simp [stringSize?, ih, Function.comp_def, Nat.add_assoc]
  | other hslash hquote _ ih =>
    simp [stringSize?, ih, hslash, hquote, Function.comp_def, Nat.add_assoc]

end StringBody

variable {c mark : Char} {cs source rest body : List Char} {n : Nat} {l : Lexeme} {literal : Bool}

/-- What stands behind the opening quote of a string that is not closed. -/
def OpenString (cs : List Char) : Prop :=
  ∃ body : List Char, StringBody body ∧ (cs = body ∨ cs = body ++ ['\\'])

/-- What stands behind the opening quote of a string that is closed, up to the end of the text. -/
def ClosedString (cs : List Char) : Prop :=
  ∃ body rest : List Char, cs = body ++ '\'' :: rest ∧ StringBody body ∧ rest.head? ≠ some '\''

theorem OpenString.stringSize?_eq_none (h : OpenString cs) : stringSize? cs = none := by
  obtain ⟨body, hbody, rfl | rfl⟩ := h
  · rw [← append_nil cs, hbody.stringSize?_append]
    rfl
  · rw [hbody.stringSize?_append]
    rfl

theorem stringSize?_quote (h : rest.head? ≠ some '\'') : stringSize? ('\'' :: rest) = some 0 := by
  cases rest with
  | nil => rfl
  | cons d ds =>
    have hd : d ≠ '\'' := by simpa using h
    rw [stringSize?.eq_5 _ (by simpa using hd)]

theorem closed_or_open_append {front : List Char} (hfront : StringBody front)
    (h : ClosedString cs ∨ OpenString cs) :
    ClosedString (front ++ cs) ∨ OpenString (front ++ cs) := by
  rcases h with ⟨body, rest, rfl, hbody, hrest⟩ | ⟨body, hbody, rfl | rfl⟩
  · exact .inl ⟨front ++ body, rest, (append_assoc _ _ _).symm, hfront.append hbody, hrest⟩
  · exact .inr ⟨front ++ cs, hfront.append hbody, .inl rfl⟩
  · exact .inr ⟨front ++ body, hfront.append hbody, .inr (append_assoc _ _ _).symm⟩

/-- **A string is closed or it is not.** -/
theorem closed_or_open_string (cs : List Char) : ClosedString cs ∨ OpenString cs := by
  fun_induction stringSize? cs with
  | case1 => exact .inr ⟨[], .nil, .inl rfl⟩
  | case2 => exact .inr ⟨[], .nil, .inr rfl⟩
  | case3 c cs ih => exact closed_or_open_append (.escaped .nil) ih
  | case4 cs ih => exact closed_or_open_append (.doubled .nil) ih
  | case5 rest hrest =>
    refine .inl ⟨[], rest, rfl, .nil, ?_⟩
    intro hhead
    obtain ⟨tail, rfl⟩ := head?_eq_some_iff.mp hhead
    exact hrest tail rfl
  | case6 c cs hend hescape _ hquote ih =>
    have hslash : c ≠ '\\' := by
      intro hc
      cases cs with
      | nil => exact hend hc rfl
      | cons d ds => exact hescape d ds hc rfl
    exact closed_or_open_append (.other hslash hquote .nil) ih

theorem sizeBefore?_append (h : mark ∉ body) (rest : List Char) :
    sizeBefore? mark (body ++ mark :: rest) = some body.length := by
  induction body with
  | nil => simp [sizeBefore?]
  | cons c body ih =>
    obtain ⟨hc, hbody⟩ := not_or.mp (mem_cons.not.mp h)
    simp [sizeBefore?, Ne.symm hc, ih hbody]

theorem sizeBefore?_eq_none : sizeBefore? mark cs = none ↔ mark ∉ cs := by
  induction cs with
  | nil => simp [sizeBefore?]
  | cons c cs ih =>
    by_cases hc : c = mark
    · simp [sizeBefore?, hc]
    · simp [sizeBefore?, hc, ih, Ne.symm hc]

/-! ### Words -/

/-- **A word with substitutions in it**, the character `next` following: how many substitutions
there are, and whether there is anything beside them. -/
inductive WordOf (next : Option Char) : List Char → Nat → Bool → Prop
  | done (h : ∀ c ∈ next, continuesWord c = false) : WordOf next [] 0 false
  | letter {c : Char} {cs : List Char} {n : Nat} {literal : Bool} (hc : continuesWord c = true)
    (hplain : c = '$' → cs.head?.or next ≠ some '\x7b') (h : WordOf next cs n literal) :
    WordOf next (c :: cs) n true
  | substitution {body cs : List Char} {n : Nat} {literal : Bool} (hbody : '\x7d' ∉ body)
    (h : WordOf next cs n literal) :
    WordOf next ('$' :: '\x7b' :: (body ++ '\x7d' :: cs)) (n + 1) literal

/-- A word whose last substitution is not closed. -/
inductive OpenWord : List Char → Nat → Prop
  | start {body : List Char} (h : '\x7d' ∉ body) : OpenWord ('$' :: '\x7b' :: body) 0
  | letter {c : Char} {cs : List Char} {n : Nat} (hc : continuesWord c = true)
    (hplain : c = '$' → cs.head? ≠ some '\x7b') (h : OpenWord cs n) : OpenWord (c :: cs) n
  | substitution {body cs : List Char} {n : Nat} (hbody : '\x7d' ∉ body) (h : OpenWord cs n) :
    OpenWord ('$' :: '\x7b' :: (body ++ '\x7d' :: cs)) (n + 1)

theorem readWord_cons_of_plain (h : c = '$' → cs.head? ≠ some '\x7b')
    (inside : Bool) : readWord inside (c :: cs) = if inside then if c = '\x7d' then
          { readWord false cs with
            size := (readWord false cs).size + 1, fragments := (readWord false cs).fragments + 1 }
        else { readWord true cs with size := (readWord true cs).size + 1 }
      else if continuesWord c then
        { readWord false cs with size := (readWord false cs).size + 1, literal := true }
      else {} := by
  rw [readWord]
  rintro ds hc rfl
  exact h hc rfl

/-- Inside a substitution an opening is like any other text. -/
theorem readWord_true_cons (hc : c ≠ '\x7d') (cs : List Char) :
    readWord true (c :: cs) = { readWord true cs with size := (readWord true cs).size + 1 } := by
  by_cases hplain : c = '$' → cs.head? ≠ some '\x7b'
  · simp [readWord_cons_of_plain hplain, hc]
  · obtain ⟨rfl, hopen⟩ := Classical.not_imp.mp hplain
    obtain ⟨ds, rfl⟩ := head?_eq_some_iff.mp (not_not.mp hopen)
    have hbrace : readWord true ('\x7b' :: ds) =
        { readWord true ds with size := (readWord true ds).size + 1 } := by
      simp [readWord_cons_of_plain]
    rw [readWord, hbrace]

theorem readWord_true_append (h : '\x7d' ∉ body) (rest : List Char) :
    readWord true (body ++ '\x7d' :: rest) = { readWord false rest with
        size := body.length + 1 + (readWord false rest).size
        fragments := (readWord false rest).fragments + 1 } := by
  induction body with
  | nil => simp [readWord_cons_of_plain, Nat.add_comm]
  | cons c body ih =>
    obtain ⟨hc, hbody⟩ := not_or.mp (mem_cons.not.mp h)
    rw [cons_append, readWord_true_cons (Ne.symm hc), ih hbody]
    simp
    omega

theorem readWord_true_of_not_mem (h : '\x7d' ∉ body) :
    readWord true body = { size := body.length, broken := true } := by
  induction body with
  | nil => rfl
  | cons c body ih =>
    obtain ⟨hc, hbody⟩ := not_or.mp (mem_cons.not.mp h)
    rw [readWord_true_cons (Ne.symm hc), ih hbody]
    rfl

theorem WordOf.readWord_append (h : WordOf rest.head? source n literal) :
    readWord false (source ++ rest) =
      { size := source.length, fragments := n, literal := literal } := by
  induction h with
  | done hnext =>
    cases rest with
    | nil => rfl
    | cons c cs =>
      have hc : continuesWord c = false := hnext c rfl
      have hplain : c = '$' → cs.head? ≠ some '\x7b' := by
        rintro rfl
        cases hc
      rw [nil_append, readWord_cons_of_plain hplain]
      simp [hc]
  | @letter c cs n literal hc hplain _ ih =>
    rw [cons_append, readWord_cons_of_plain (by rwa [List.head?_append]), ih]
    simp [hc]
  | @substitution body cs n literal hbody _ ih =>
    have hsource : '$' :: '\x7b' :: (body ++ '\x7d' :: cs) ++ rest =
        '$' :: '\x7b' :: (body ++ '\x7d' :: (cs ++ rest)) := by simp
    rw [hsource, readWord, readWord_true_append hbody, ih]
    simp
    omega

theorem OpenWord.readWord_eq (h : OpenWord source n) :
    (readWord false source).broken ∧ (readWord false source).fragments = n := by
  induction h with
  | start hbody => simp [readWord, readWord_true_of_not_mem hbody]
  | letter hc hplain _ ih => simpa [readWord_cons_of_plain hplain, hc] using ih
  | substitution hbody _ ih => simpa [readWord, readWord_true_append hbody] using ih

/-- **Each text starts with a word, be it empty, or with one that is not closed.** -/
theorem exists_word (text : List Char) : (∃ source rest n literal, text = source ++ rest ∧
      WordOf rest.head? source n literal) ∨ ∃ n, OpenWord text n := by
  induction hn : text.length using Nat.strong_induction_on generalizing text with
  | _ k ih =>
    subst hn
    cases text with
    | nil => exact .inl ⟨[], [], 0, false, rfl, .done (by simp)⟩
    | cons c cs =>
      by_cases hplain : c = '$' → cs.head? ≠ some '\x7b'
      · cases hc : continuesWord c with
        | false =>
          exact .inl ⟨[], c :: cs, 0, false, rfl, .done (by simpa using hc)⟩
        | true =>
          rcases ih cs.length (by simp) cs rfl with ⟨source, rest, n, literal, rfl, hword⟩ | ⟨n, hopen⟩
          · exact .inl ⟨c :: source, rest, n, true, rfl,
              .letter hc (by rwa [List.head?_append] at hplain) hword⟩
          · exact .inr ⟨n, .letter hc hplain hopen⟩
      · obtain ⟨rfl, hopen⟩ := Classical.not_imp.mp hplain
        obtain ⟨inside, rfl⟩ := head?_eq_some_iff.mp (not_not.mp hopen)
        by_cases hclose : '\x7d' ∈ inside
        · obtain ⟨body, after, rfl, hbody⟩ := eq_append_cons_of_mem hclose
          rcases ih after.length (by simp; omega) after rfl with
            ⟨source, rest, n, literal, rfl, hword⟩ | ⟨n, hopen⟩
          · exact .inl ⟨'$' :: '\x7b' :: (body ++ '\x7d' :: source), rest, n + 1, literal, by simp,
              .substitution hbody hword⟩
          · exact .inr ⟨n + 1, .substitution hbody hopen⟩
        · exact .inr ⟨0, .start hclose⟩

/-! ### The grammar -/

def closing (mark : Char) : Char :=
  if mark = '[' then ']' else mark

def identifierMarks : List Char := ['"', '\x60', '[']

/-- Whether a number can go on with a character. -/
def continuesNumber (c : Char) : Bool :=
  c.isAlphanum || c == '.'

/-- Whether a text starts a word: with a letter or with a substitution. -/
def StartsWord (source : List Char) : Prop :=
  source.head?.any startsWord = true ∨ ['$', '\x7b'] <+: source

theorem StartsWord.exists_cons (h : StartsWord source) : ∃ c cs, source = c :: cs := by
  cases source with
  | nil => simp [StartsWord] at h
  | cons c cs => exact ⟨c, cs, rfl⟩

theorem StartsWord.append {source : List Char} (h : StartsWord source) (rest : List Char) :
    StartsWord (source ++ rest) := by
  obtain ⟨c, cs, rfl⟩ := h.exists_cons
  exact h.imp id fun hopen => hopen.trans (prefix_append _ _)

/-- **A character that is a token by itself**, `next` being the one that follows. -/
structure Alone (c : Char) (next : Option Char) : Prop where
  notBlank : isBlank c = false
  notLineComment : c = '-' → next ≠ some '-'
  notBlockComment : c = '/' → next ≠ some '*'
  notString : c ≠ '\''
  notIdentifier : c ∉ identifierMarks
  notPlaceholder : c = '#' → next ≠ some '\x7b'
  notWord : startsWord c = false
  notSubstitution : c = '$' → next ≠ some '\x7b'
  notParam : c ≠ '?'
  notCast : c = ':' → next ≠ some ':'
  notNamed : c = ':' → ∀ d ∈ next, startsWord d = false
  notNumber : c.isDigit = false

/-- **What the characters of a lexeme are**, `next` being the character that follows them.  What is
not closed takes all that is left, so nothing follows it. -/
inductive Spelled : List Char → Option Char → Lexeme → Prop
  | lineEnd {next : Option Char} : Spelled ['\n'] next (.gap 1 1)
  | blank {c : Char} {next : Option Char} (h : isBlank c = true) (hne : c ≠ '\n') :
    Spelled [c] next (.gap 1 0)
  | lineComment {body : List Char} {next : Option Char} (h : '\n' ∉ body)
    (hnext : ∀ c ∈ next, c = '\n') : Spelled ('-' :: '-' :: body) next (.gap (body.length + 2) 0)
  | blockComment {body : List Char} {next : Option Char} (h : commentSize? (body ++ ['*']) = none) :
    Spelled ('/' :: '*' :: (body ++ ['*', '/'])) next (.gap (body.length + 4) (newlines body))
  | string {body : List Char} {next : Option Char} (h : StringBody body) (hnext : next ≠ some '\'') :
    Spelled ('\'' :: (body ++ ['\''])) next
      (.token (body.length + 2) (newlines body) .string body 0)
  | identifier {mark : Char} {body : List Char} {next : Option Char} (hmark : mark ∈ identifierMarks)
    (h : closing mark ∉ body) : Spelled (mark :: (body ++ [closing mark])) next
      (.token (body.length + 2) (newlines body) .quoted body 0)
  | placeholder {body : List Char} {next : Option Char} (h : '\x7d' ∉ body) :
    Spelled ('#' :: '\x7b' :: (body ++ ['\x7d'])) next
      (.token (body.length + 3) 0 .param ('#' :: '\x7b' :: (body ++ ['\x7d'])) 0)
  | word {source : List Char} {next : Option Char} {n : Nat} {literal : Bool}
    (hstart : StartsWord source) (h : WordOf next source n literal) : Spelled source next
      (.token source.length 0 (if literal then .word else .dynamic) source n)
  | question {next : Option Char} : Spelled ['?'] next (.token 1 0 .param ['?'] 0)
  | cast {next : Option Char} : Spelled [':', ':'] next (.token 2 0 .operator [':', ':'] 0)
  | named {c : Char} {body : List Char} {next : Option Char} (hc : startsWord c = true)
    (h : ∀ d ∈ body, continuesWord d = true) (hnext : ∀ d ∈ next, continuesWord d = false) :
    Spelled (':' :: c :: body) next (.token (body.length + 2) 0 .param (':' :: c :: body) 0)
  | number {c : Char} {body : List Char} {next : Option Char} (hc : c.isDigit = true)
    (h : ∀ d ∈ body, continuesNumber d = true) (hnext : ∀ d ∈ next, continuesNumber d = false) :
    Spelled (c :: body) next (.token (body.length + 1) 0 .number (c :: body) 0)
  | alone {c : Char} {next : Option Char} (h : Alone c next) :
    Spelled [c] next (.token 1 0 (if isMark c then .punct c else .operator) [c] 0)
  | openComment {body : List Char} (h : commentSize? body = none) :
    Spelled ('/' :: '*' :: body) none (.broken .openComment 0)
  | openString {body : List Char} (h : OpenString body) :
    Spelled ('\'' :: body) none (.broken .openString 0)
  | openIdentifier {mark : Char} {body : List Char} (hmark : mark ∈ identifierMarks)
    (h : closing mark ∉ body) : Spelled (mark :: body) none (.broken (.openIdentifier mark) 0)
  | openPlaceholder {body : List Char} (h : '\x7d' ∉ body) :
    Spelled ('#' :: '\x7b' :: body) none (.broken .openPlaceholder 0)
  | openSubstitution {source : List Char} {n : Nat} (hstart : StartsWord source)
    (h : OpenWord source n) : Spelled source none (.broken .openSubstitution n)

/-- The characters a lexeme takes off the front of a text. -/
def Lexeme.taken (text : List Char) : Lexeme → List Char
  | .gap size _ => text.take size
  | .token size _ _ _ _ => text.take size
  | .broken _ _ => text

/-! ### The branches of the reader -/

theorem not_mem_openers_of_startsWord (h : startsWord c) : c ∉ openers := by
  have hall : openers.all (fun d => !startsWord d) = true := by decide +kernel
  intro hmem
  simpa [h] using all_eq_true.mp hall c hmem

theorem of_isDigit {p : Char → Bool}
    (hp : (range 10).all (fun n => p (Char.ofNat (48 + n))) = true) (h : c.isDigit = true) :
    p c := by
  have hrange : 48 ≤ c.toNat ∧ c.toNat ≤ 57 := by
    simpa [Char.isDigit, UInt32.le_iff_toNat_le] using h
  have hcode := all_eq_true.mp hp (c.toNat - 48) (by simp; omega)
  rwa [Nat.add_sub_cancel' hrange.1, Char.ofNat_toNat] at hcode

theorem plain_of_isDigit (h : c.isDigit) :
    isBlank c = false ∧ c ∉ openers ∧ startsWord c = false := by
  have := of_isDigit (p := fun c => !isBlank c && !openers.contains c && !startsWord c)
    (by decide +kernel) h
  simpa [and_assoc] using this

theorem any_beq_eq_true {o : Option Char} {d : Char} : o.any (· == d) ↔ o = some d := by
  cases o <;> simp

/-- What neither is white space nor opens anything is part of a word, a number or a token alone. -/
theorem lexeme_of_plain (hblank : isBlank c = false) (hopen : c ∉ openers)
    (cs : List Char) : lexeme c cs = if startsWord c then wordLexeme (c :: cs)
      else if c.isDigit then .token ((c :: cs).takeWhile continuesNumber).length 0 .number
          ((c :: cs).takeWhile continuesNumber) 0 else singleLexeme c := by
  simp only [openers, mem_cons, not_mem_nil, or_false, not_or] at hopen
  rw [lexeme, if_neg (by simp [hopen]), if_neg (by simp [hblank]), if_neg (by simp [hopen]),
    if_neg (by simp [hopen]), if_neg (by simp [hopen]), if_neg (by simp [hopen]),
    if_neg (by simp [hopen])]
  by_cases hstart : startsWord c
  · rw [if_pos (by simp [hstart]), if_pos hstart]
  · rw [if_neg (by simp [hopen, hstart]), if_neg hstart, if_neg (by simp [hopen]),
      if_neg (by simp [hopen]), if_neg (by simp [hopen])]
    rfl

theorem lexeme_blockComment (h : commentSize? (body ++ ['*']) = none)
    (rest : List Char) : lexeme '/' ('*' :: (body ++ '*' :: '/' :: rest)) =
      .gap (body.length + 4) (newlines body) := by
  have htake : ('/' :: '*' :: (body ++ '*' :: '/' :: rest)).take (body.length + 2 + 2) =
      '/' :: '*' :: (body ++ ['*', '/']) := by
    simp [take_append]
  rw [lexeme, if_neg (by decide), if_neg (by decide), if_neg (by simp), if_pos (by simp),
    drop_one, tail_cons, commentSize?_append h rest]
  simp only [htake]
  simp [newlines]

theorem lexeme_openComment (h : commentSize? cs = none) :
    lexeme '/' ('*' :: cs) = .broken .openComment 0 := by
  rw [lexeme, if_neg (by decide), if_neg (by decide), if_neg (by simp), if_pos (by simp),
    drop_one, tail_cons, h]

theorem lexeme_string (h : StringBody body) (hrest : rest.head? ≠ some '\'') :
    lexeme '\'' (body ++ '\'' :: rest) =
      .token (body.length + 2) (newlines body) .string body 0 := by
  rw [show lexeme '\'' (body ++ '\'' :: rest) = stringLexeme (body ++ '\'' :: rest) from rfl,
    stringLexeme, h.stringSize?_append, stringSize?_quote hrest]
  simp

theorem lexeme_openString (h : OpenString cs) : lexeme '\'' cs = .broken .openString 0 := by
  rw [show lexeme '\'' cs = stringLexeme cs from rfl, stringLexeme, h.stringSize?_eq_none]

theorem lexeme_eq_identifierLexeme (h : mark ∈ identifierMarks) (cs : List Char) :
    lexeme mark cs = identifierLexeme mark cs := by
  simp only [identifierMarks, mem_cons, not_mem_nil, or_false] at h
  rcases h with rfl | rfl | rfl <;> rfl

theorem lexeme_identifier (hmark : mark ∈ identifierMarks) (h : closing mark ∉ body)
    (rest : List Char) : lexeme mark (body ++ closing mark :: rest) =
      .token (body.length + 2) (newlines body) .quoted body 0 := by
  have hsize := sizeBefore?_append h rest
  rw [lexeme_eq_identifierLexeme hmark, identifierLexeme]
  rw [closing] at hsize ⊢
  rw [hsize]
  simp only [take_left]

theorem lexeme_openIdentifier (hmark : mark ∈ identifierMarks) (h : closing mark ∉ cs) :
    lexeme mark cs = .broken (.openIdentifier mark) 0 := by
  have hsize := sizeBefore?_eq_none.mpr h
  rw [closing] at hsize
  rw [lexeme_eq_identifierLexeme hmark, identifierLexeme, hsize]

theorem lexeme_placeholder (h : '\x7d' ∉ body) (rest : List Char) :
    lexeme '#' ('\x7b' :: (body ++ '\x7d' :: rest)) =
      .token (body.length + 3) 0 .param ('#' :: '\x7b' :: (body ++ ['\x7d'])) 0 := by
  rw [lexeme, if_neg (by decide), if_neg (by decide), if_neg (by simp), if_neg (by simp),
    if_neg (by decide), if_neg (by decide), if_pos (by simp), drop_one, tail_cons,
    sizeBefore?_append h rest]
  simp [take_append]

theorem lexeme_openPlaceholder (h : '\x7d' ∉ cs) :
    lexeme '#' ('\x7b' :: cs) = .broken .openPlaceholder 0 := by
  rw [lexeme, if_neg (by decide), if_neg (by decide), if_neg (by simp), if_neg (by simp),
    if_neg (by decide), if_neg (by decide), if_pos (by simp), drop_one, tail_cons,
    sizeBefore?_eq_none.mpr h]

theorem lexeme_word (h : StartsWord (c :: cs)) : lexeme c cs = wordLexeme (c :: cs) := by
  rcases h with h | ⟨rest, h⟩
  · have hstart : startsWord c = true := by simpa using h
    rw [lexeme_of_plain (not_isBlank_of_startsWord hstart) (not_mem_openers_of_startsWord hstart),
      if_pos hstart]
  · obtain ⟨rfl, rfl⟩ : '$' = c ∧ '\x7b' :: rest = cs := by simpa using h
    rfl

theorem lexeme_number (h : c.isDigit) (cs : List Char) :
    lexeme c cs = .token ((c :: cs).takeWhile continuesNumber).length 0 .number
      ((c :: cs).takeWhile continuesNumber) 0 := by
  obtain ⟨hblank, hopen, hstart⟩ := plain_of_isDigit h
  rw [lexeme_of_plain hblank hopen, if_neg (by simp [hstart]), if_pos h]

theorem lexeme_named (hc : startsWord c) (cs : List Char) :
    lexeme ':' (c :: cs) = .token (':' :: (c :: cs).takeWhile continuesWord).length 0 .param
      (':' :: (c :: cs).takeWhile continuesWord) 0 := by
  have hopen := not_mem_openers_of_startsWord hc
  simp only [openers, mem_cons, not_mem_nil, or_false, not_or] at hopen
  have hstart : startsWord ':' = false := by decide
  have hcolon : ¬(':' == ':' && (c :: cs).head?.any (· == ':')) = true := by simp [hopen]
  have hname : (':' == ':' && (c :: cs).head?.any startsWord) = true := by simp [hc]
  rw [lexeme, if_neg (by decide), if_neg (by decide), if_neg (by simp), if_neg (by simp),
    if_neg (by decide), if_neg (by decide), if_neg (by simp), if_neg (by simp [hstart]),
    if_neg (by decide), if_neg hcolon, if_pos hname]

theorem lexeme_alone (h : Alone c cs.head?) : lexeme c cs = singleLexeme c := by
  have hmarks := h.notIdentifier
  simp only [identifierMarks, mem_cons, not_mem_nil, or_false, not_or] at hmarks
  have hpair : ∀ {a b : Char}, (c = a → cs.head? ≠ some b) →
      ¬(c == a && cs.head?.any (· == b)) := by
    intro a b hab hboth
    simp only [Bool.and_eq_true, beq_iff_eq, any_beq_eq_true] at hboth
    exact hab hboth.1 hboth.2
  have hline : c ≠ '\n' := by
    rintro rfl
    exact absurd h.notBlank (by decide)
  have hnamed : ¬(c == ':' && cs.head?.any startsWord) := by
    simp only [Bool.and_eq_true, beq_iff_eq, Option.any_eq_true, not_and, not_exists]
    intro hc d hd
    simp [h.notNamed hc d hd]
  rw [lexeme, if_neg hline, if_neg (by simp [h.notBlank]), if_neg (hpair h.notLineComment),
    if_neg (hpair h.notBlockComment), if_neg h.notString, if_neg (by simp [hmarks]),
    if_neg (hpair h.notPlaceholder), if_neg (by simpa [h.notWord] using hpair h.notSubstitution),
    if_neg h.notParam, if_neg (hpair h.notCast), if_neg hnamed, if_neg (by simp [h.notNumber])]

/-! ### The grammar is that of the reader -/

theorem takeWhile_append_of_head {p : Char → Bool} (h : ∀ c ∈ body, p c)
    (hrest : ∀ c ∈ rest.head?, p c = false) : (body ++ rest).takeWhile p = body := by
  rw [takeWhile_append_of_pos h]
  cases rest with
  | nil => simp
  | cons c cs => simp [hrest c rfl]

theorem exists_takeWhile (p : Char → Bool) (cs : List Char) :
    ∃ rest, cs = cs.takeWhile p ++ rest ∧ (∀ c ∈ cs.takeWhile p, p c) ∧
      ∀ c ∈ rest.head?, p c = false := by
  refine ⟨cs.dropWhile p, takeWhile_append_dropWhile.symm,
    fun c hc => mem_takeWhile_imp hc, ?_⟩
  intro c hc
  have := head?_dropWhile_not p cs
  rw [Option.mem_def.mp hc] at this
  simpa using this

/-- What the reader finds at the front of a text is spelled as the grammar says. -/
def ReadAsSpelled (c : Char) (cs : List Char) : Prop :=
  ∃ source rest : List Char, c :: cs = source ++ rest ∧ Spelled source rest.head? (lexeme c cs)

theorem readAsSpelled_lineComment (cs : List Char) : ReadAsSpelled '-' ('-' :: cs) := by
  obtain ⟨rest, hcs, hbody, hrest⟩ := exists_takeWhile (· != '\n') cs
  refine ⟨'-' :: '-' :: cs.takeWhile (· != '\n'), rest, by simp [← hcs], ?_⟩
  exact .lineComment (fun h => by simpa using hbody _ h) (fun c hc => by simpa using hrest c hc)

theorem readAsSpelled_blockComment (cs : List Char) : ReadAsSpelled '/' ('*' :: cs) := by
  cases hsize : commentSize? cs with
  | none =>
    rw [ReadAsSpelled, lexeme_openComment hsize]
    exact ⟨'/' :: '*' :: cs, [], by simp, .openComment hsize⟩
  | some n =>
    obtain ⟨body, rest, rfl, -, hbody⟩ := exists_of_commentSize? hsize
    rw [ReadAsSpelled, lexeme_blockComment hbody]
    exact ⟨'/' :: '*' :: (body ++ ['*', '/']), rest, by simp, .blockComment hbody⟩

theorem readAsSpelled_string (cs : List Char) : ReadAsSpelled '\'' cs := by
  rcases closed_or_open_string cs with ⟨body, rest, rfl, hbody, hrest⟩ | hopen
  · rw [ReadAsSpelled, lexeme_string hbody hrest]
    exact ⟨'\'' :: (body ++ ['\'']), rest, by simp, .string hbody hrest⟩
  · rw [ReadAsSpelled, lexeme_openString hopen]
    exact ⟨'\'' :: cs, [], by simp, .openString hopen⟩

theorem readAsSpelled_identifier (hmark : mark ∈ identifierMarks) (cs : List Char) :
    ReadAsSpelled mark cs := by
  rw [ReadAsSpelled]
  by_cases hclose : closing mark ∈ cs
  · obtain ⟨body, rest, rfl, hbody⟩ := eq_append_cons_of_mem hclose
    rw [lexeme_identifier hmark hbody]
    exact ⟨mark :: (body ++ [closing mark]), rest, by simp, .identifier hmark hbody⟩
  · rw [lexeme_openIdentifier hmark hclose]
    exact ⟨mark :: cs, [], by simp, .openIdentifier hmark hclose⟩

theorem readAsSpelled_placeholder (cs : List Char) : ReadAsSpelled '#' ('\x7b' :: cs) := by
  rw [ReadAsSpelled]
  by_cases hclose : '\x7d' ∈ cs
  · obtain ⟨body, rest, rfl, hbody⟩ := eq_append_cons_of_mem hclose
    rw [lexeme_placeholder hbody]
    exact ⟨'#' :: '\x7b' :: (body ++ ['\x7d']), rest, by simp, .placeholder hbody⟩
  · rw [lexeme_openPlaceholder hclose]
    exact ⟨'#' :: '\x7b' :: cs, [], by simp, .openPlaceholder hclose⟩

theorem wordLexeme_append (h : WordOf rest.head? source n literal) : wordLexeme (source ++ rest) =
      .token source.length 0 (if literal then .word else .dynamic) source n := by
  rw [wordLexeme, h.readWord_append]
  simp

theorem wordLexeme_open (h : OpenWord source n) :
    wordLexeme source = .broken .openSubstitution n := by
  rw [wordLexeme]
  simp [h.readWord_eq]

theorem WordOf.startsWord_of_append (h : WordOf rest.head? source n literal)
    (heq : c :: cs = source ++ rest) (hstart : StartsWord (c :: cs)) : StartsWord source := by
  cases h with
  | done hnext =>
    rw [nil_append] at heq
    subst heq
    have hc : continuesWord c = false := hnext c rfl
    rcases hstart with hstart | ⟨ds, hds⟩
    · rw [continuesWord_of_startsWord (by simpa using hstart)] at hc
      cases hc
    · obtain ⟨rfl, -⟩ := cons.inj hds
      cases hc
  | @letter d ds n literal hd hplain _ =>
    obtain ⟨rfl, rfl⟩ : c = d ∧ cs = ds ++ rest := by simpa using heq
    rcases hstart with hstart | ⟨es, hes⟩
    · exact .inl (by simpa using hstart)
    · obtain ⟨rfl, hrest⟩ : '$' = c ∧ '\x7b' :: es = ds ++ rest := by simpa using hes
      rw [← head?_append, ← hrest] at hplain
      exact absurd rfl (hplain rfl)
  | substitution => exact .inr ⟨_, rfl⟩

theorem readAsSpelled_word (hstart : StartsWord (c :: cs)) : ReadAsSpelled c cs := by
  rw [ReadAsSpelled, lexeme_word hstart]
  rcases exists_word (c :: cs) with ⟨source, rest, n, literal, heq, hword⟩ | ⟨n, hopen⟩
  · rw [heq, wordLexeme_append hword]
    exact ⟨source, rest, rfl, .word (hword.startsWord_of_append heq hstart) hword⟩
  · rw [wordLexeme_open hopen]
    exact ⟨c :: cs, [], by simp, .openSubstitution hstart hopen⟩

theorem readAsSpelled_named (hc : startsWord c) (cs : List Char) : ReadAsSpelled ':' (c :: cs) := by
  rw [ReadAsSpelled, lexeme_named hc, takeWhile_cons_of_pos (continuesWord_of_startsWord hc)]
  obtain ⟨rest, hcs, hbody, hrest⟩ := exists_takeWhile continuesWord cs
  exact ⟨':' :: c :: cs.takeWhile continuesWord, rest, by simp [← hcs], .named hc hbody hrest⟩

theorem continuesNumber_of_isDigit (h : c.isDigit) : continuesNumber c := by
  simp [continuesNumber, Char.isAlphanum, h]

theorem readAsSpelled_number (hc : c.isDigit) (cs : List Char) : ReadAsSpelled c cs := by
  rw [ReadAsSpelled, lexeme_number hc, takeWhile_cons_of_pos (continuesNumber_of_isDigit hc)]
  obtain ⟨rest, hcs, hbody, hrest⟩ := exists_takeWhile continuesNumber cs
  exact ⟨c :: cs.takeWhile continuesNumber, rest, by simp [← hcs], .number hc hbody hrest⟩

/-- **What is read is spelled so.** -/
theorem readAsSpelled (c : Char) (cs : List Char) : ReadAsSpelled c cs := by
  -- the questions of the reader in its order; after a no to all of them the character stands alone
  by_cases hline : c = '\n'
  · subst hline
    exact ⟨['\n'], cs, rfl, .lineEnd⟩
  by_cases hblank : isBlank c
  · rw [ReadAsSpelled, lexeme, if_neg hline, if_pos hblank]
    exact ⟨[c], cs, rfl, .blank hblank hline⟩
  by_cases hcomment : c = '-' ∧ cs.head? = some '-'
  · obtain ⟨rfl, hnext⟩ := hcomment
    obtain ⟨cs, rfl⟩ := head?_eq_some_iff.mp hnext
    exact readAsSpelled_lineComment cs
  by_cases hblock : c = '/' ∧ cs.head? = some '*'
  · obtain ⟨rfl, hnext⟩ := hblock
    obtain ⟨cs, rfl⟩ := head?_eq_some_iff.mp hnext
    exact readAsSpelled_blockComment cs
  by_cases hstring : c = '\''
  · subst hstring
    exact readAsSpelled_string cs
  by_cases hmark : c ∈ identifierMarks
  · exact readAsSpelled_identifier hmark cs
  by_cases hplace : c = '#' ∧ cs.head? = some '\x7b'
  · obtain ⟨rfl, hnext⟩ := hplace
    obtain ⟨cs, rfl⟩ := head?_eq_some_iff.mp hnext
    exact readAsSpelled_placeholder cs
  by_cases hstart : StartsWord (c :: cs)
  · exact readAsSpelled_word hstart
  by_cases hquestion : c = '?'
  · subst hquestion
    exact ⟨['?'], cs, rfl, .question⟩
  by_cases hcast : c = ':' ∧ cs.head? = some ':'
  · obtain ⟨rfl, hnext⟩ := hcast
    obtain ⟨cs, rfl⟩ := head?_eq_some_iff.mp hnext
    exact ⟨[':', ':'], cs, rfl, .cast⟩
  by_cases hnamed : c = ':' ∧ ∃ d ∈ cs.head?, startsWord d
  · obtain ⟨rfl, d, hd, hname⟩ := hnamed
    obtain ⟨cs, rfl⟩ := head?_eq_some_iff.mp hd
    exact readAsSpelled_named hname cs
  by_cases hdigit : c.isDigit
  · exact readAsSpelled_number hdigit cs
  rw [StartsWord, not_or] at hstart
  have halone : Alone c cs.head? :=
    { notBlank := by simpa using hblank
      notLineComment := fun hc hnext => hcomment ⟨hc, hnext⟩
      notBlockComment := fun hc hnext => hblock ⟨hc, hnext⟩
      notString := hstring
      notIdentifier := hmark
      notPlaceholder := fun hc hnext => hplace ⟨hc, hnext⟩
      notWord := by simpa using hstart.1
      notSubstitution := by
        rintro rfl hnext
        obtain ⟨ds, rfl⟩ := head?_eq_some_iff.mp hnext
        exact hstart.2 ⟨ds, rfl⟩
      notParam := hquestion
      notCast := fun hc hnext => hcast ⟨hc, hnext⟩
      notNamed := by
        intro hc d hd
        by_contra hname
        exact hnamed ⟨hc, d, hd, by simpa using hname⟩
      notNumber := by simpa using hdigit }
  rw [ReadAsSpelled, lexeme_alone halone]
  exact ⟨[c], cs, rfl, .alone halone⟩

/-- **What is spelled so is what is read.** -/
theorem Spelled.lexeme_eq (h : Spelled source rest.head? l) :
    ∃ c cs, source ++ rest = c :: cs ∧ lexeme c cs = l := by
  generalize hnext : rest.head? = next at h
  cases h with
  | lineEnd => exact ⟨'\n', rest, rfl, rfl⟩
  | @blank c _ hblank hne =>
    refine ⟨c, rest, rfl, ?_⟩
    rw [lexeme, if_neg hne, if_pos hblank]
  | @lineComment body _ hbody hrest =>
    subst hnext
    refine ⟨'-', '-' :: (body ++ rest), rfl, ?_⟩
    have htake : ('-' :: '-' :: body ++ rest).takeWhile (· != '\n') = '-' :: '-' :: body :=
      takeWhile_append_of_head (by simp; rintro c hc rfl; exact hbody hc) (by simpa using hrest)
    rw [show lexeme '-' ('-' :: (body ++ rest)) =
      .gap (('-' :: '-' :: body ++ rest).takeWhile (· != '\n')).length 0 from rfl, htake]
    rfl
  | @blockComment body _ hbody =>
    exact ⟨'/', '*' :: (body ++ '*' :: '/' :: rest), by simp, lexeme_blockComment hbody rest⟩
  | @string body _ hbody hquote =>
    subst hnext
    exact ⟨'\'', body ++ '\'' :: rest, by simp, lexeme_string hbody hquote⟩
  | @identifier mark body _ hmark hbody =>
    exact ⟨mark, body ++ closing mark :: rest, by simp, lexeme_identifier hmark hbody rest⟩
  | @placeholder body _ hbody =>
    exact ⟨'#', '\x7b' :: (body ++ '\x7d' :: rest), by simp, lexeme_placeholder hbody rest⟩
  | word hstart hword =>
    subst hnext
    obtain ⟨c, cs, rfl⟩ := hstart.exists_cons
    have htext : StartsWord (c :: (cs ++ rest)) := hstart.append rest
    refine ⟨c, cs ++ rest, rfl, ?_⟩
    rw [lexeme_word htext, ← cons_append, wordLexeme_append hword]
  | question => exact ⟨'?', rest, rfl, rfl⟩
  | cast => exact ⟨':', ':' :: rest, rfl, rfl⟩
  | @named c body _ hc hbody hrest =>
    subst hnext
    refine ⟨':', c :: (body ++ rest), rfl, ?_⟩
    rw [lexeme_named hc, takeWhile_cons_of_pos (continuesWord_of_startsWord hc),
      takeWhile_append_of_head hbody hrest]
    rfl
  | @number c body _ hc hbody hrest =>
    subst hnext
    refine ⟨c, body ++ rest, rfl, ?_⟩
    rw [lexeme_number hc, takeWhile_cons_of_pos (continuesNumber_of_isDigit hc),
      takeWhile_append_of_head hbody hrest]
    rfl
  | @alone c _ halone =>
    subst hnext
    exact ⟨c, rest, rfl, lexeme_alone halone⟩
  | @openComment body hbody =>
    obtain rfl := head?_eq_none_iff.mp hnext
    exact ⟨'/', '*' :: body, by simp, lexeme_openComment hbody⟩
  | @openString body hbody =>
    obtain rfl := head?_eq_none_iff.mp hnext
    exact ⟨'\'', body, by simp, lexeme_openString hbody⟩
  | @openIdentifier mark body hmark hbody =>
    obtain rfl := head?_eq_none_iff.mp hnext
    exact ⟨mark, body, by simp, lexeme_openIdentifier hmark hbody⟩
  | @openPlaceholder body hbody =>
    obtain rfl := head?_eq_none_iff.mp hnext
    exact ⟨'#', '\x7b' :: body, by simp, lexeme_openPlaceholder hbody⟩
  | openSubstitution hstart hword =>
    obtain rfl := head?_eq_none_iff.mp hnext
    obtain ⟨c, cs, rfl⟩ := hstart.exists_cons
    exact ⟨c, cs, by simp, by rw [lexeme_word hstart, wordLexeme_open hword]⟩

theorem Spelled.exists_cons {next : Option Char} (h : Spelled source next l) :
    ∃ c cs, source = c :: cs := by
  cases h with
  | word hstart => exact hstart.exists_cons
  | openSubstitution hstart => exact hstart.exists_cons
  | _ => exact ⟨_, _, rfl⟩

theorem Spelled.taken_append (h : Spelled source rest.head? l) :
    l.taken (source ++ rest) = source := by
  generalize hnext : rest.head? = next at h
  cases h with
  | openComment | openString | openIdentifier | openPlaceholder | openSubstitution =>
    obtain rfl := head?_eq_none_iff.mp hnext
    simp [Lexeme.taken]
  | _ => simp [Lexeme.taken, take_append]

theorem Spelled.rest_eq_nil_of_broken {fault : Fault}
    (h : Spelled source rest.head? (.broken fault n)) : rest = [] := by
  have htaken := h.taken_append
  simpa [Lexeme.taken] using htaken

/-! ### Whole texts -/

/-- A lexeme with the characters it was read from. -/
structure Piece where
  source : List Char
  lexeme : Lexeme
deriving DecidableEq, Repr

/-- The pieces of a text behind its first `skip` characters. -/
def piecesFrom (skip : Nat) : List Char → List Piece
  | [] => []
  | c :: cs =>
    match skip with
    | skip + 1 => piecesFrom skip cs
    | 0 =>
      let source := (lexeme c cs).taken (c :: cs)
      ⟨source, lexeme c cs⟩ :: piecesFrom (source.length - 1) cs

def pieces (text : List Char) : List Piece :=
  piecesFrom 0 text

/-- **A text spelled piece by piece.** -/
inductive Spells : List Char → List Piece → Prop
  | done : Spells [] []
  | piece {source rest : List Char} {l : Lexeme} {ps : List Piece}
    (h : Spelled source rest.head? l) (hrest : Spells rest ps) :
    Spells (source ++ rest) (⟨source, l⟩ :: ps)

theorem piecesFrom_eq_drop (skip : Nat) (text : List Char) :
    piecesFrom skip text = piecesFrom 0 (text.drop skip) := by
  induction text generalizing skip with
  | nil => simp [piecesFrom]
  | cons c cs ih =>
    cases skip with
    | zero => rfl
    | succ skip => rw [piecesFrom, drop_succ_cons, ih]

theorem scan_eq_drop (skip line : Nat) (text : List Char) :
    scan skip line text = scan 0 line (text.drop skip) := by
  induction text generalizing skip with
  | nil => simp [scan]
  | cons c cs ih =>
    cases skip with
    | zero => rfl
    | succ skip => rw [scan, drop_succ_cons, ih]

theorem Spelled.pieces_append (h : Spelled source rest.head? l) :
    pieces (source ++ rest) = ⟨source, l⟩ :: pieces rest := by
  obtain ⟨c, cs, rfl⟩ := h.exists_cons
  obtain ⟨d, ds, heq, hl⟩ := h.lexeme_eq
  obtain ⟨rfl, rfl⟩ : c = d ∧ cs ++ rest = ds := by simpa using heq
  have htaken : l.taken (c :: (cs ++ rest)) = c :: cs := h.taken_append
  rw [pieces, cons_append, piecesFrom, hl]
  simp only [htaken]
  rw [piecesFrom_eq_drop]
  simp [pieces]

theorem Spells.pieces_eq {text : List Char} {ps : List Piece} (h : Spells text ps) :
    pieces text = ps := by
  induction h with
  | done => rfl
  | piece h _ ih => rw [h.pieces_append, ih]

/-- **Each text is spelled by its pieces.** -/
theorem spells_pieces (text : List Char) : Spells text (pieces text) := by
  induction hn : text.length using Nat.strong_induction_on generalizing text with
  | _ n ih =>
    subst hn
    cases text with
    | nil => exact .done
    | cons c cs =>
      obtain ⟨source, rest, heq, h⟩ := readAsSpelled c cs
      -- no lexeme is empty, so what is left is shorter
      have hlength : rest.length < (c :: cs).length := by
        obtain ⟨d, ds, rfl⟩ := h.exists_cons
        rw [heq, cons_append, length_cons, length_append]
        omega
      rw [heq, h.pieces_append]
      exact .piece h (ih rest.length hlength rest rfl)

/-! ### Places of tokens -/

namespace Piece

/-- The line ends the reader counts in a piece. -/
def lines (p : Piece) : Nat :=
  match p.lexeme with
  | .gap _ lines => lines
  | .token _ lines _ _ _ => lines
  | .broken _ _ => 0

def token? (p : Piece) (line : Nat) : Option Token :=
  match p.lexeme with
  | .token _ _ sort text fragments => some ⟨sort, String.ofList text, fragments != 0, line⟩
  | _ => none

def fault? (p : Piece) : Option Fault :=
  match p.lexeme with
  | .broken fault _ => some fault
  | _ => none

end Piece

/-- A token with the number of characters before it. -/
structure Placed where
  offset : Nat
  token : Token
deriving DecidableEq, Repr

/-- The tokens among some pieces, the first of which is at a certain offset and line. -/
def placedFrom (offset line : Nat) : List Piece → List Placed
  | [] => []
  | p :: ps =>
    ((p.token? line).map (⟨offset, ·⟩)).toList ++
      placedFrom (offset + p.source.length) (line + p.lines) ps

def placed (text : List Char) : List Placed :=
  placedFrom 0 1 (pieces text)

theorem drop_of_take_append {c : Char} {cs rest : List Char} {size : Nat}
    (h : (c :: cs ++ rest).take size = c :: cs) : (cs ++ rest).drop (size - 1) = rest := by
  cases size with
  | zero => simp at h
  | succ size =>
    have hsplit := take_append_drop (size + 1) (c :: cs ++ rest)
    rw [h] at hsplit
    simpa using hsplit

/-- What is read in one text and then in another. -/
def Tokens.followedBy (a b : Tokens) : Tokens :=
  ⟨a.tokens ++ b.tokens, a.fragments + b.fragments, a.broken.or b.broken⟩

def Piece.read (p : Piece) (line : Nat) : Tokens where
  tokens := (p.token? line).toList
  fragments :=
    match p.lexeme with
    | .gap _ _ => 0
    | .token _ _ _ _ n => n
    | .broken _ n => n
  broken := p.fault?.map (⟨line, ·⟩)

section

variable {source rest : List Char} {l : Lexeme} (h : Spelled source rest.head? l) (line : Nat)

include h

/-- **One piece of a scan**, then the scan of what is left. -/
theorem Spelled.scan_eq : scan 0 line (source ++ rest) = ((Piece.mk source l).read line).followedBy
        (scan 0 (line + (Piece.mk source l).lines) rest) := by
  obtain ⟨c, cs, rfl⟩ := h.exists_cons
  obtain ⟨d, ds, heq, hl⟩ := h.lexeme_eq
  obtain ⟨rfl, rfl⟩ : c = d ∧ cs ++ rest = ds := by simpa using heq
  have htaken := h.taken_append
  rw [cons_append, scan, hl]
  cases l with
  | gap size lines =>
    dsimp only
    rw [scan_eq_drop, drop_of_take_append htaken]
    simp [Piece.read, Piece.token?, Piece.fault?, Piece.lines, Tokens.followedBy]
  | token size lines sort text fragments =>
    dsimp only
    rw [scan_eq_drop, drop_of_take_append htaken]
    simp [Piece.read, Piece.token?, Piece.fault?, Piece.lines, Tokens.followedBy]
  | broken fault fragments =>
    obtain rfl : rest = [] := by simpa [Lexeme.taken] using htaken
    simp [Piece.read, Piece.token?, Piece.fault?, Tokens.followedBy, scan]

theorem Spelled.scan_append :
    (scan 0 line (source ++ rest)).tokens = ((Piece.mk source l).token? line).toList ++
      (scan 0 (line + (Piece.mk source l).lines) rest).tokens ∧
    (scan 0 line (source ++ rest)).broken = ((Piece.mk source l).fault?.map (⟨line, ·⟩)).or
      (scan 0 (line + (Piece.mk source l).lines) rest).broken := by
  rw [h.scan_eq]
  exact ⟨rfl, rfl⟩

end

def readPieces (line : Nat) : List Piece → Tokens
  | [] => {}
  | p :: ps => (p.read line).followedBy (readPieces (line + p.lines) ps)

/-- **A text is read piece by piece.** -/
theorem Spells.scan_eq {text : List Char} {ps : List Piece} (h : Spells text ps) (line : Nat) :
    scan 0 line text = readPieces line ps := by
  induction h generalizing line with
  | done => rfl
  | piece h _ ih => rw [h.scan_eq, ih, readPieces]

theorem tokens_readPieces (offset line : Nat) (ps : List Piece) :
    (readPieces line ps).tokens = (placedFrom offset line ps).map (·.token) := by
  induction ps generalizing offset line with
  | nil => rfl
  | cons p ps ih =>
    rw [readPieces, Tokens.followedBy, Piece.read, ih (offset + p.source.length), placedFrom]
    cases p.token? line <;> simp

theorem broken_readPieces_eq_none_iff (line : Nat) (ps : List Piece) :
    (readPieces line ps).broken = none ↔ ∀ p ∈ ps, p.fault? = none := by
  induction ps generalizing line with
  | nil => simp [readPieces]
  | cons p ps ih => simp [readPieces, Tokens.followedBy, Piece.read, ih]

/-- **The tokens of a text are those of its pieces**, wherever the text stands. -/
theorem Spells.tokens_scan {text : List Char} {ps : List Piece} (h : Spells text ps)
    (offset line : Nat) : (scan 0 line text).tokens = (placedFrom offset line ps).map (·.token) := by
  rw [h.scan_eq, tokens_readPieces offset]

theorem Spells.broken_scan_eq_none_iff {text : List Char} {ps : List Piece} (h : Spells text ps)
    (line : Nat) : (scan 0 line text).broken = none ↔ ∀ p ∈ ps, p.fault? = none := by
  rw [h.scan_eq, broken_readPieces_eq_none_iff]

theorem tokens_tokenize (text : String) :
    (tokenize text).tokens = (placed text.toList).map (·.token) :=
  (spells_pieces text.toList).tokens_scan 0 1

end AppAtlas.Sql
