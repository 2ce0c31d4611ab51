import AppAtlas.Proofs.Sql.Junctions
import AppAtlas.Proofs.Sql.References
import AppAtlas.Proofs.Text.Cuts

/-!
# Texts that are written to be read

What is read in a text that is put together from words, quoted names, numbers and marks.  Words and
numbers are read in full only before something that parts tokens; the rest can be followed by
anything.  On which line a token stands is left out here, except that the line ends are counted.

* `ReadAs.append`, `ReadAs.cons`: texts one behind the other.
* `Word.readAs`, `QuotedName.readAs`, `readAs_integer`: texts of a few tokens.
* `readAs_intercalate`: lists with commas.
-/

namespace AppAtlas.Sql

open List

/-- **A text is read as some tokens**, shown as if all of them were on the first line, with a number
of line ends among them, whatever follows that parts tokens. -/
def ReadAs (source : List Char) (tokens : List Token) (lines : Nat) : Prop :=
  ∀ rest : List Char, Ends rest.head? → ∃ ps : List Piece,
    pieces (source ++ rest) = ps ++ pieces rest ∧ ps.filterMap (·.token? 1) = tokens ∧
      countedLines ps = lines ∧ ∀ p ∈ ps, p.fault? = none

namespace ReadAs

variable {a b : List Char} {s t : List Token} {m n : Nat}

theorem nil : ReadAs [] [] 0 :=
  fun _ _ => ⟨[], rfl, rfl, rfl, by simp⟩

theorem append (ha : ReadAs a s m) (hb : ReadAs b t n) (h : Ends b.head?) :
    ReadAs (a ++ b) (s ++ t) (m + n) := by
  intro rest hrest
  have hnext : Ends (b ++ rest).head? := by
    cases b with
    | nil => exact hrest
    | cons c cs => exact h
  obtain ⟨qs, hqs, rfl, rfl, hqs'⟩ := hb rest hrest
  obtain ⟨ps, hps, rfl, rfl, hps'⟩ := ha (b ++ rest) hnext
  refine ⟨ps ++ qs, ?_, by simp, by simp [countedLines], ?_⟩
  · rw [append_assoc, hps, hqs, append_assoc]
  · intro p hp
    exact (mem_append.mp hp).elim (hps' p) (hqs' p)

theorem cons {source : List Char} {l : Lexeme} (h : ∀ next, Spelled source (b.head?.or next) l)
    (hclosed : (Piece.mk source l).fault? = none)
    (hs : ((Piece.mk source l).token? 1).toList = s) (hm : (Piece.mk source l).lines = m)
    (hb : ReadAs b t n) : ReadAs (source ++ b) (s ++ t) (m + n) := by
  intro rest hrest
  obtain ⟨qs, hqs, rfl, rfl, hqs'⟩ := hb rest hrest
  have hspelled : Spelled source (b ++ rest).head? l := by
    rw [head?_append]
    exact h _
  refine ⟨⟨source, l⟩ :: qs, ?_, ?_, ?_, forall_mem_cons.mpr ⟨hclosed, hqs'⟩⟩
  · rw [append_assoc, hspelled.pieces_append, hqs, cons_append]
  · rw [filterMap_cons, ← hs]
    cases (Piece.mk source l).token? 1 <;> rfl
  · rw [countedLines, map_cons, sum_cons, hm]
    rfl

theorem space (hb : ReadAs b t n) : ReadAs (' ' :: b) t n := by
  have hspaced : ReadAs ([' '] ++ b) ([] ++ t) (0 + n) :=
    cons (fun _ => .blank (by decide) (by decide)) rfl rfl rfl hb
  rwa [Nat.zero_add] at hspaced

end ReadAs

/-- **A token is read before what parts tokens.** -/
theorem Spelled.readAs {source text : List Char} {size lines fragments : Nat} {sort : TokenSort}
    (h : Spelled source none (.token size lines sort text fragments)) :
    ReadAs source [⟨sort, String.ofList text, fragments != 0, 1⟩] lines := by
  intro rest hrest
  exact ⟨[_], (h.of_ends hrest).pieces_append, rfl, by simp [countedLines, Piece.lines],
    by simp [Piece.fault?]⟩

/-! ### Marks -/

theorem alone_of_mem {c : Char} (hc : c ∈ "(),.;*-".toList) {next : Option Char}
    (hnext : c = '-' → next ≠ some '-') : Alone c next := by
  have hall : "(),.;*-".toList.all (fun c => !Text.isBlank c && !startsWord c && !c.isDigit &&
      !"/'\"\x60[#$?:".toList.contains c) := by decide
  obtain ⟨⟨⟨hblank, hword⟩, hdigit⟩, hother⟩ :
      ((Text.isBlank c = false ∧ startsWord c = false) ∧ c.isDigit = false) ∧
        c ∉ "/'\"\x60[#$?:".toList := by
    simpa using all_eq_true.mp hall c hc
  have hne : ∀ d ∈ "/'\"\x60[#$?:".toList, c ≠ d := by
    rintro d hd rfl
    exact hother hd
  exact
    { notBlank := hblank
      notLineComment := hnext
      notBlockComment := fun h => absurd h (hne _ (by decide))
      notString := hne _ (by decide)
      notIdentifier := by
        simp only [identifierMarks, mem_cons, not_mem_nil, or_false, not_or]
        exact ⟨hne _ (by decide), hne _ (by decide), hne _ (by decide)⟩
      notPlaceholder := fun h => absurd h (hne _ (by decide))
      notWord := hword
      notSubstitution := fun h => absurd h (hne _ (by decide))
      notParam := hne _ (by decide)
      notCast := fun h => absurd h (hne _ (by decide))
      notNamed := fun h => absurd h (hne _ (by decide))
      notNumber := hdigit }

theorem ReadAs.mark {b : List Char} {t : List Token} {n : Nat} {c : Char} (hc : isMark c)
    (hb : ReadAs b t n) : ReadAs (c :: b) (.ofMark c :: t) n := by
  have hmem : c ∈ "(),.;*".toList := contains_iff_mem.mp hc
  have hminus : c ≠ '-' := by
    rintro rfl
    cases hc
  have halone : ∀ next, Alone c next := fun next =>
    alone_of_mem (mem_append_left ['-'] hmem) fun h => absurd h hminus
  have hmarked : ReadAs ([c] ++ b) ([.ofMark c] ++ t) (0 + n) :=
    .cons (fun _ => .alone (halone _)) rfl (by rw [hc]; rfl) rfl hb
  rwa [Nat.zero_add] at hmarked

/-! ### Words and quoted names -/

theorem Word.readAs (w : Word) : ReadAs w.text.toList [w.token 1] 0 := by
  have := w.spelled.readAs
  rwa [String.ofList_toList] at this

def spacedWords (ws : List Word) : List Char :=
  ws.flatMap fun w => ' ' :: w.text.toList

theorem ends_spacedWords (ws : List Word) : Ends (spacedWords ws).head? := by
  cases ws with
  | nil => simp [spacedWords, Ends]
  | cons w ws => exact ends_some.mpr (by decide)

theorem readAs_spacedWords (ws : List Word) : ReadAs (spacedWords ws) (ws.map (·.token 1)) 0 := by
  induction ws with
  | nil => exact .nil
  | cons w ws ih => exact (w.readAs.append ih (ends_spacedWords ws)).space

/-- **A name to be written in double quotes.** -/
structure QuotedName where
  text : String
  quote_not_mem : '"' ∉ text.toList := by decide

namespace QuotedName

variable (q : QuotedName)

def source : List Char :=
  '"' :: (q.text.toList ++ ['"'])

def token : Token :=
  ⟨.quoted, q.text, false, 1⟩

def lines : Nat :=
  Text.newlines q.text.toList

theorem readAs_append {b : List Char} {t : List Token} {n : Nat} (hb : ReadAs b t n) :
    ReadAs (q.source ++ b) (q.token :: t) (q.lines + n) := by
  have hspelled : ∀ next, Spelled q.source (b.head?.or next)
      (.token (q.text.toList.length + 2) q.lines .quoted q.text.toList 0) := by
    intro next
    exact .identifier (by decide) q.quote_not_mem
  have htoken : ((Piece.mk q.source (.token (q.text.toList.length + 2) q.lines .quoted
      q.text.toList 0)).token? 1).toList = [q.token] := by
    simp [Piece.token?, token]
  exact .cons hspelled rfl htoken rfl hb

theorem readAs : ReadAs q.source [q.token] q.lines := by
  have := q.readAs_append .nil
  rwa [append_nil] at this

end QuotedName

/-! ### Numbers -/

def numberToken (n : Nat) : Token :=
  ⟨.number, toString n, false, 1⟩

def integerTokens : Int → List Token
  | .ofNat n => [numberToken n]
  | .negSucc n => [⟨.operator, "-", false, 1⟩, numberToken (n + 1)]

theorem toList_toString (n : Nat) : ∃ c cs, (toString n).toList = c :: cs ∧
    c.isDigit ∧ ∀ d ∈ cs, continuesNumber d := by
  have hdigits : (toString n).toList = Nat.toDigits 10 n := by
    rw [Nat.toString_eq_ofList_toDigits, String.toList_ofList]
  have hdigit : ∀ d ∈ (toString n).toList, d.isDigit := by
    intro d hd
    rw [hdigits] at hd
    exact Nat.isDigit_of_mem_toDigits (by decide) (by decide) hd
  cases hn : (toString n).toList with
  | nil =>
    rw [hdigits] at hn
    exact absurd hn Nat.toDigits_ne_nil
  | cons c cs =>
    rw [hn] at hdigit
    exact ⟨c, cs, rfl, hdigit c mem_cons_self,
      fun d hd => continuesNumber_of_isDigit (hdigit d (mem_cons_of_mem c hd))⟩

theorem readAs_natural (n : Nat) : ReadAs (toString n).toList [numberToken n] 0 := by
  obtain ⟨c, cs, hn, hc, hcs⟩ := toList_toString n
  have := (Spelled.number hc hcs (by simp)).readAs
  rwa [← hn, String.ofList_toList] at this

theorem toList_toString_negSucc (n : Nat) :
    (toString (Int.negSucc n)).toList = '-' :: (toString (n + 1)).toList := by
  show ("-" ++ toString (n + 1)).toList = _
  rw [String.toList_append]
  rfl

theorem readAs_integer (i : Int) : ReadAs (toString i).toList (integerTokens i) 0 := by
  cases i with
  | ofNat n => exact readAs_natural n
  | negSucc n =>
    obtain ⟨c, cs, hn, hc, -⟩ := toList_toString (n + 1)
    have halone : Alone '-' (some c) := by
      refine alone_of_mem (by decide) fun _ h => ?_
      cases h
      cases hc
    have hspelled : ∀ next, Spelled ['-'] ((toString (n + 1)).toList.head?.or next)
        (singleLexeme '-') := by
      intro next
      rw [hn]
      exact .alone halone
    rw [toList_toString_negSucc]
    exact .cons hspelled rfl rfl rfl (readAs_natural (n + 1))

theorem toList_integerTokens (i : Int) :
    (integerTokens i).flatMap (·.text.toList) = (toString i).toList := by
  cases i with
  | ofNat n => exact append_nil _
  | negSucc n =>
    rw [toList_toString_negSucc, integerTokens, flatMap_cons, flatMap_singleton]
    rfl

/-! ### Lists -/

theorem mem_intercalate {comma t : Token} {es : List (List Token)}
    (h : t ∈ [comma].intercalate es) : t = comma ∨ ∃ e ∈ es, t ∈ e := by
  cases es with
  | nil => cases h
  | cons e es =>
    rw [Text.intercalate_cons, mem_append, mem_flatMap] at h
    rcases h with h | ⟨d, hd, h⟩
    · exact .inr ⟨e, mem_cons_self, h⟩
    · exact (mem_cons.mp h).imp_right fun h => ⟨d, mem_cons_of_mem e hd, h⟩

theorem filter_intercalate {comma : Token} {p : Token → Bool} (hp : p comma = false)
    (es : List (List Token)) : ([comma].intercalate es).filter p = es.flatMap (·.filter p) := by
  cases es with
  | nil => rfl
  | cons e es =>
    rw [Text.intercalate_cons]
    simp [filter_flatMap, hp]

section Lists

variable {α : Type} {source : α → List Char} {tokens : α → List Token} {lines : α → Nat}
  {xs : List α}

theorem ends_commas : Ends ((xs.map source).flatMap ([',', ' '] ++ ·)).head? := by
  cases xs with
  | nil => simp [Ends]
  | cons x xs => exact ends_some.mpr (by decide)

theorem readAs_commas (h : ∀ x ∈ xs, ReadAs (source x) (tokens x) (lines x)) :
    ReadAs ((xs.map source).flatMap ([',', ' '] ++ ·))
      ((xs.map tokens).flatMap ([.ofMark ','] ++ ·)) (xs.map lines).sum := by
  induction xs with
  | nil => exact .nil
  | cons x xs ih =>
    obtain ⟨hx, hxs⟩ := forall_mem_cons.mp h
    exact (hx.append (ih hxs) ends_commas).space.mark (by decide)

/-- **A list is read item by item.** -/
theorem readAs_intercalate (h : ∀ x ∈ xs, ReadAs (source x) (tokens x) (lines x)) :
    ReadAs ([',', ' '].intercalate (xs.map source)) ([.ofMark ','].intercalate (xs.map tokens))
      (xs.map lines).sum := by
  cases xs with
  | nil => exact .nil
  | cons x xs =>
    obtain ⟨hx, hxs⟩ := forall_mem_cons.mp h
    rw [map_cons, map_cons, Text.intercalate_cons, Text.intercalate_cons, map_cons,
      sum_cons]
    exact hx.append (readAs_commas hxs) ends_commas

end Lists

end AppAtlas.Sql
