import AppAtlas.Proofs.Text.Cuts
import AppAtlas.Resolve.Similarity

/-!
# Names with gaps

A table's name can have gaps that are filled in when the statement runs.  A pattern keeps the
literal pieces between the gaps, and looks for them in a name one after the other, each at its first
place. Looking at the first place only is enough: if the pieces that follow fit behind some later
place, they fit behind the first one too, where more of the name is left.

* `TablePattern.Part`, `TablePattern.Reads`: a text as letters and gaps.
* `TablePattern.fits_iff_covers`: a pattern with a gap fits exactly the names that can be filled in.
* `table_pattern_fits_its_instances`: what a pattern fits, and how well.
-/

namespace AppAtlas

open List Text

namespace TablePattern

/-! ### Texts with gaps -/

inductive Part where
  | letter (c : Char)
  | gap
deriving DecidableEq

def opening : List Char := ['$', '\x7b']

/-- **A text read as letters and gaps.**  A gap runs from its opening to the first closing brace, or
to the end of the text. -/
inductive Reads : List Char → List Part → Prop
  | done : Reads [] []
  | letter {c : Char} {rest : List Char} {parts : List Part} (h : ¬opening <+: c :: rest)
    (hrest : Reads rest parts) : Reads (c :: rest) (.letter c :: parts)
  | gap {inside rest : List Char} {parts : List Part} (h : '\x7d' ∉ inside)
    (hrest : Reads rest parts) : Reads (opening ++ inside ++ '\x7d' :: rest) (.gap :: parts)
  | openGap {inside : List Char} (h : '\x7d' ∉ inside) : Reads (opening ++ inside) [.gap]

/-- **The name that comes out** when the gaps are filled in one after the other. -/
def fill : List Part → List (List Char) → List Char
  | .letter c :: parts, fills => c :: fill parts fills
  | .gap :: parts, f :: fills => f ++ fill parts fills
  | _, _ => []

def letters (parts : List Part) : List Char :=
  parts.filterMap fun
    | .letter c => some c
    | .gap => none

/-- A name comes out if the gaps are filled in with something. -/
def Covers (parts : List Part) (name : List Char) : Prop :=
  ∃ fills : List (List Char), fills.length = parts.count .gap ∧ fill parts fills = name

variable {parts : List Part} {text name : List Char}

theorem exists_reads (text : List Char) : ∃ parts, Reads text parts := by
  induction hn : text.length using Nat.strong_induction_on generalizing text with
  | _ n ih =>
    subst hn
    by_cases hopen : opening <+: text
    · obtain ⟨after, rfl⟩ := hopen
      by_cases hclose : '\x7d' ∈ after
      · obtain ⟨inside, rest, rfl, hinside⟩ := eq_append_cons_of_mem hclose
        obtain ⟨parts, hparts⟩ := ih rest.length (by simp; omega) rest rfl
        rw [← append_assoc]
        exact ⟨_, .gap hinside hparts⟩
      · exact ⟨_, .openGap hclose⟩
    · cases text with
      | nil => exact ⟨_, .done⟩
      | cons c rest =>
        obtain ⟨parts, hparts⟩ := ih rest.length (by simp) rest rfl
        exact ⟨_, .letter hopen hparts⟩

theorem Reads.gap_mem (h : Reads text parts) (hopen : opening <:+: text) : .gap ∈ parts := by
  induction h with
  | done => exact absurd (infix_nil.mp hopen) (by simp [opening])
  | letter h _ ih =>
    rcases infix_cons_iff.mp hopen with hprefix | hinfix
    · exact absurd hprefix h
    · exact mem_cons_of_mem _ (ih hinfix)
  | gap => exact mem_cons_self
  | openGap => exact mem_cons_self

theorem exists_first_gap (h : .gap ∈ parts) :
    ∃ (word : List Char) (rest : List Part), parts = word.map .letter ++ .gap :: rest := by
  induction parts with
  | nil => cases h
  | cons part parts ih =>
    cases part with
    | gap => exact ⟨[], parts, rfl⟩
    | letter c =>
      obtain ⟨word, rest, rfl⟩ := ih (by simpa using h)
      exact ⟨c :: word, rest, rfl⟩

theorem Reads.opening_prefix_iff {word : List Char} {rest : List Part}
    (h : Reads text (word.map .letter ++ .gap :: rest)) : opening <+: text ↔ word = [] := by
  cases word with
  | nil =>
    refine iff_of_true ?_ rfl
    cases h with
    | gap => exact ⟨_, (append_assoc _ _ _).symm⟩
    | openGap => exact prefix_append _ _
  | cons c word =>
    refine iff_of_false ?_ (by simp)
    cases h with
    | letter h => exact h

/-! ### Names that come out -/

theorem covers_nil : Covers [] name ↔ name = [] := by
  constructor
  · rintro ⟨fills, -, rfl⟩
    rfl
  · rintro rfl
    exact ⟨[], rfl, rfl⟩

theorem covers_letter {c : Char} :
    Covers (.letter c :: parts) name ↔ ∃ rest, name = c :: rest ∧ Covers parts rest := by
  constructor
  · rintro ⟨fills, hlength, rfl⟩
    exact ⟨fill parts fills, rfl, fills, by simpa using hlength, rfl⟩
  · rintro ⟨_, rfl, fills, hlength, rfl⟩
    exact ⟨fills, by simpa using hlength, rfl⟩

theorem covers_word {word : List Char} : Covers (word.map .letter ++ parts) name ↔
      ∃ rest, name = word ++ rest ∧ Covers parts rest := by
  induction word generalizing name with
  | nil => simp
  | cons c word ih =>
    rw [map_cons, cons_append, covers_letter]
    constructor
    · rintro ⟨_, rfl, h⟩
      obtain ⟨rest, rfl, hrest⟩ := ih.mp h
      exact ⟨rest, rfl, hrest⟩
    · rintro ⟨rest, rfl, hrest⟩
      exact ⟨word ++ rest, rfl, ih.mpr ⟨rest, rfl, hrest⟩⟩

/-- A gap takes up any part of a name, so what follows it is to cover some end of the name. -/
theorem covers_gap : Covers (.gap :: parts) name ↔ ∃ rest, rest <:+ name ∧ Covers parts rest := by
  constructor
  · rintro ⟨fills, hlength, rfl⟩
    cases fills with
    | nil => exact absurd hlength (by simp)
    | cons f fills =>
      exact ⟨fill parts fills, suffix_append _ _, fills, by simpa using hlength, rfl⟩
  · rintro ⟨_, ⟨f, rfl⟩, fills, hlength, rfl⟩
    exact ⟨f :: fills, by simpa using hlength, rfl⟩

theorem byteSize_fill {fills : List (List Char)} (h : fills.length = parts.count .gap) :
    byteSize (fill parts fills) = byteSize (letters parts) + byteSize fills.flatten := by
  induction parts generalizing fills with
  | nil =>
    obtain rfl := length_eq_zero_iff.mp h
    rfl
  | cons part parts ih =>
    cases part with
    | letter c =>
      have hsize := @ih fills (by simpa using h)
      show c.utf8Size + byteSize (fill parts fills) =
        c.utf8Size + byteSize (letters parts) + _
      rw [hsize, Nat.add_assoc]
    | gap =>
      cases fills with
      | nil => exact absurd h (by simp)
      | cons f fills =>
        have hsize := @ih fills (by simpa using h)
        show byteSize (f ++ fill parts fills) =
          byteSize (letters parts) + byteSize (f ++ fills.flatten)
        rw [byteSize_append, byteSize_append, hsize]
        omega

/-! ### Literal pieces -/

/-- The literal pieces between gaps, and whether the last one ends the text; `piece` is what was
read since the last gap. -/
def piecesOf (piece : List Char) : List Part → List (List Char) × Bool
  | [] => if piece.isEmpty then ([], false) else ([piece], true)
  | .letter c :: parts => piecesOf (piece ++ [c]) parts
  | .gap :: parts =>
    (if piece.isEmpty then (piecesOf [] parts).1 else piece :: (piecesOf [] parts).1,
      (piecesOf [] parts).2)

theorem piecesFrom_inGap (piece : List Char) (c : Char) (rest : List Char) :
    piecesFrom true piece (c :: rest) = piecesFrom (c != '\x7d') [] rest := by
  rw [piecesFrom.eq_def]
  exact if_pos rfl

theorem piecesFrom_gap {inside : List Char} (h : '\x7d' ∉ inside) (rest : List Char) :
    piecesFrom true [] (inside ++ '\x7d' :: rest) = piecesFrom false [] rest := by
  induction inside with
  | nil => exact piecesFrom_inGap [] _ rest
  | cons c inside ih =>
    rw [mem_cons, not_or] at h
    rw [cons_append, piecesFrom_inGap, bne_iff_ne.mpr (Ne.symm h.1)]
    exact ih h.2

theorem piecesFrom_openGap {inside : List Char} (h : '\x7d' ∉ inside) :
    piecesFrom true [] inside = ([], false) := by
  induction inside with
  | nil => rfl
  | cons c inside ih =>
    rw [mem_cons, not_or] at h
    rw [piecesFrom_inGap, bne_iff_ne.mpr (Ne.symm h.1)]
    exact ih h.2

theorem piecesFrom_letter {c : Char} {rest : List Char} (h : ¬opening <+: c :: rest)
    (piece : List Char) : piecesFrom false piece (c :: rest) = piecesFrom false (piece ++ [c]) rest := by
  rw [piecesFrom, if_neg (by decide)]
  rintro after rfl rfl
  exact h (prefix_append opening after)

theorem piecesFrom_opening (piece after : List Char) : piecesFrom false piece (opening ++ after) =
      (if piece.isEmpty then (piecesFrom true [] after).1 else piece :: (piecesFrom true [] after).1,
        (piecesFrom true [] after).2) := by
  rw [opening, cons_append, cons_append, nil_append, piecesFrom, if_neg (by decide)]

/-- **The pieces of a text are those of its letters and gaps.** -/
theorem Reads.piecesFrom_eq (h : Reads text parts) (piece : List Char) :
    piecesFrom false piece text = piecesOf piece parts := by
  induction h generalizing piece with
  | done =>
    rw [piecesFrom, piecesOf, Bool.false_or]
  | letter h _ ih => rw [piecesFrom_letter h, ih, piecesOf]
  | gap h _ ih =>
    rw [append_assoc, piecesFrom_opening, piecesFrom_gap h, ih, piecesOf]
  | openGap h =>
    rw [piecesFrom_opening, piecesFrom_openGap h]
    rfl

theorem piecesOf_word (piece word : List Char) (parts : List Part) :
    piecesOf piece (word.map .letter ++ parts) = piecesOf (piece ++ word) parts := by
  induction word generalizing piece with
  | nil => simp
  | cons c word ih =>
    rw [map_cons, cons_append, piecesOf, ih, append_assoc]
    rfl

theorem flatten_piecesOf (piece : List Char) (parts : List Part) :
    (piecesOf piece parts).1.flatten = piece ++ letters parts := by
  induction parts generalizing piece with
  | nil =>
    rw [piecesOf]
    split
    · next h =>
      rw [isEmpty_iff.mp h]
      rfl
    · simp [letters]
  | cons part parts ih =>
    cases part with
    | letter c =>
      rw [piecesOf, ih, append_assoc]
      rfl
    | gap =>
      rw [piecesOf]
      dsimp only
      split
      · next h =>
        rw [ih, isEmpty_iff.mp h]
        rfl
      · rw [flatten_cons, ih]
        rfl

theorem not_anchored_of_no_pieces {piece : List Char} (h : (piecesOf piece parts).1 = []) :
    (piecesOf piece parts).2 = false := by
  induction parts generalizing piece with
  | nil =>
    rw [piecesOf] at h ⊢
    split
    · rfl
    · next hne =>
      rw [if_neg hne] at h
      cases h
  | cons part parts ih =>
    cases part with
    | letter c => exact ih h
    | gap =>
      rw [piecesOf] at h ⊢
      dsimp only at h ⊢
      split at h
      · exact ih h
      · cases h

/-! ### Looking for the pieces -/

/-- A piece is looked for at its first place only. -/
theorem occurIn_cons {anchored : Bool} {piece : List Char} {pieces : List (List Char)}
    (h : pieces = [] → anchored = false) : occurIn anchored (piece :: pieces) text ↔
      ∃ before after, cut piece text = some (before, after) ∧ occurIn anchored pieces after := by
  cases pieces with
  | nil =>
    rw [occurIn, h rfl, if_neg (by decide), holds, Option.isSome_iff_exists]
    constructor
    · rintro ⟨⟨before, after⟩, hcut⟩
      exact ⟨before, after, hcut, rfl⟩
    · rintro ⟨before, after, hcut, -⟩
      exact ⟨(before, after), hcut⟩
  | cons next pieces =>
    rw [occurIn]
    · split
      · next before after hcut =>
        constructor
        · exact fun hrest => ⟨before, after, hcut, hrest⟩
        · rintro ⟨before', after', hcut', hrest⟩
          obtain ⟨-, rfl⟩ := Prod.mk.inj (Option.some.inj (hcut.symm.trans hcut'))
          exact hrest
      · next hnone =>
        refine iff_of_false (by decide) ?_
        rintro ⟨before, after, hcut, -⟩
        exact absurd (hnone.symm.trans hcut) (by simp)
    · simp

/-- **The pieces after a gap are found in a text exactly if what was read covers some end of it.**
By induction on what is read; a piece at a later place is exchanged for the one at the first
place. -/
theorem occurIn_iff_covers (piece : List Char) (parts : List Part) (text : List Char) :
    occurIn (piecesOf piece parts).2 (piecesOf piece parts).1 text ↔
      ∃ rest, rest <:+ text ∧ Covers (piece.map .letter ++ parts) rest := by
  induction parts generalizing piece text with
  | nil =>
    rw [piecesOf]
    split
    · next h =>
      rw [isEmpty_iff.mp h]
      exact iff_of_true rfl ⟨[], nil_suffix, covers_nil.mpr rfl⟩
    · rw [occurIn, if_pos rfl, isSome_stripEnd?_iff]
      constructor
      · exact fun h => ⟨piece, h, covers_word.mpr ⟨[], by simp, covers_nil.mpr rfl⟩⟩
      · rintro ⟨rest, hrest, hcovers⟩
        obtain ⟨_, rfl, hnil⟩ := covers_word.mp hcovers
        rw [covers_nil.mp hnil, append_nil] at hrest
        exact hrest
  | cons part parts ih =>
    cases part with
    | letter c =>
      rw [piecesOf, ih, map_append, append_assoc]
      rfl
    | gap =>
      -- what follows the gap is to cover an end of what is left
      have hbehind : ∀ text,
          occurIn (piecesOf [] parts).2 (piecesOf [] parts).1 text ↔
            Covers (.gap :: parts) text := fun text => (ih [] text).trans covers_gap.symm
      rw [piecesOf]
      dsimp only
      split
      · next h =>
        rw [hbehind, isEmpty_iff.mp h, covers_gap]
        constructor
        · rintro ⟨rest, hrest, hcovers⟩
          exact ⟨rest, hrest, covers_gap.mpr ⟨rest, suffix_refl _, hcovers⟩⟩
        · rintro ⟨rest, hrest, hcovers⟩
          obtain ⟨rest', hrest', hcovers'⟩ := covers_gap.mp hcovers
          exact ⟨rest', hrest'.trans hrest, hcovers'⟩
      · rw [occurIn_cons not_anchored_of_no_pieces]
        constructor
        · rintro ⟨before, after, hcut, hoccur⟩
          refine ⟨piece ++ after, ?_, covers_word.mpr ⟨after, rfl, (hbehind after).mp hoccur⟩⟩
          rw [append_cut hcut, append_assoc]
          exact suffix_append _ _
        · rintro ⟨_, ⟨before, rfl⟩, hcovers⟩
          obtain ⟨after, rfl, hafter⟩ := covers_word.mp hcovers
          -- the first place leaves at least what this one does
          obtain ⟨before', after', hcut, hsuffix⟩ := exists_cut piece before after
          rw [← append_assoc]
          refine ⟨before', after', hcut, (hbehind after').mpr ?_⟩
          obtain ⟨rest, hrest, hcovers'⟩ := covers_gap.mp hafter
          exact covers_gap.mpr ⟨rest, hrest.trans hsuffix, hcovers'⟩

/-! ### Patterns -/

section

variable {text : String} {parts : List Part}

def ofParts (text : List Char) (parts : List Part) : TablePattern where
  pieces := (piecesOf [] parts).1
  anchoredStart := !(opening.isPrefixOf text)
  anchoredEnd := (piecesOf [] parts).2

theorem pieces_ne_nil (h : letters parts ≠ []) : (piecesOf [] parts).1 ≠ [] := by
  intro hnil
  have hflatten := flatten_piecesOf [] parts
  rw [hnil] at hflatten
  exact h hflatten.symm

theorem parse?_of_reads (h : Reads (unqualified text.toList) parts) (hletters : letters parts ≠ []) :
    parse? text = some (ofParts (unqualified text.toList) parts) := by
  have hpieces : (piecesOf [] parts).1.isEmpty = false := by
    simpa using pieces_ne_nil hletters
  rw [parse?]
  dsimp only
  rw [h.piecesFrom_eq, hpieces]
  rfl

theorem literalSize_ofParts (text : List Char) (parts : List Part) :
    (ofParts text parts).literalSize = byteSize (letters parts) := by
  rw [literalSize, ofParts, flatten_piecesOf]
  rfl

theorem fits_of_anchored {p : TablePattern} {first : List Char} {pieces : List (List Char)}
    (hpieces : p.pieces = first :: pieces) (hstart : p.anchoredStart) (name : List Char) :
    p.fits name ↔ ∃ rest, name = first ++ rest ∧ occurIn p.anchoredEnd pieces rest := by
  rw [fits, hpieces, hstart, Bool.and_eq_true, isPrefixOf_iff_prefix]
  constructor
  · rintro ⟨⟨rest, rfl⟩, hoccur⟩
    rw [drop_left] at hoccur
    exact ⟨rest, rfl, hoccur⟩
  · rintro ⟨rest, rfl, hoccur⟩
    rw [drop_left]
    exact ⟨prefix_append _ _, hoccur⟩

theorem fits_of_not_anchored {p : TablePattern} (hstart : p.anchoredStart = false)
    (name : List Char) : p.fits name = occurIn p.anchoredEnd p.pieces name := by
  rw [fits]
  split
  · next h => exact absurd (hstart.symm.trans h) (by decide)
  · rfl

/-- **A pattern with a gap fits exactly the names that come out of it.** -/
theorem fits_iff_covers {text : List Char} (h : Reads text parts) (hgap : .gap ∈ parts)
    (name : List Char) : (ofParts text parts).fits name ↔ Covers parts name := by
  obtain ⟨word, rest, rfl⟩ := exists_first_gap hgap
  have hbehind : ∀ name : List Char,
      occurIn (piecesOf [] rest).2 (piecesOf [] rest).1 name ↔ Covers (.gap :: rest) name :=
    fun name => (occurIn_iff_covers [] rest name).trans covers_gap.symm
  have hpieces : piecesOf [] (word.map .letter ++ .gap :: rest) =
      (if word.isEmpty then (piecesOf [] rest).1 else word :: (piecesOf [] rest).1,
        (piecesOf [] rest).2) := by
    rw [piecesOf_word, nil_append, piecesOf]
  have hstart := h.opening_prefix_iff
  by_cases hword : word = []
  · subst hword
    have hopen : (ofParts text (.gap :: rest)).anchoredStart = false := by
      simpa [ofParts] using hstart.mpr rfl
    exact (Bool.eq_iff_iff.mp (fits_of_not_anchored hopen name)).trans (hbehind name)
  · have hopen : (ofParts text (word.map .letter ++ .gap :: rest)).anchoredStart := by
      rw [ofParts, Bool.not_eq_true', ← Bool.not_eq_true, isPrefixOf_iff_prefix, hstart]
      exact hword
    have hfirst : (ofParts text (word.map .letter ++ .gap :: rest)).pieces =
        word :: (piecesOf [] rest).1 := by
      rw [ofParts, hpieces, if_neg (by simpa using hword)]
    have hlast : (ofParts text (word.map .letter ++ .gap :: rest)).anchoredEnd =
        (piecesOf [] rest).2 := by
      rw [ofParts, hpieces]
    rw [fits_of_anchored hfirst hopen, hlast, covers_word]
    exact exists_congr fun behind => and_congr_right fun _ => hbehind behind

theorem size_lt_iff {fills : List (List Char)} (h : fills.length = parts.count .gap) :
    byteSize (letters parts) < byteSize (fill parts fills) ↔ ∃ f ∈ fills, f ≠ [] := by
  have hflatten : byteSize fills.flatten = 0 ↔ ∀ f ∈ fills, f = [] := by
    rw [byteSize_eq_zero_iff, flatten_eq_nil_iff]
  rw [byteSize_fill h]
  constructor
  · intro hlt
    by_contra hnone
    have hzero := hflatten.mpr fun f hf => by_contra fun hne => hnone ⟨f, hf, hne⟩
    omega
  · rintro ⟨f, hf, hne⟩
    have hpos : byteSize fills.flatten ≠ 0 := fun hzero => hne (hflatten.mp hzero f hf)
    omega

end

end TablePattern

open TablePattern

/-- **A pattern fits exactly its instances.**  Every text can be read as letters and gaps.  If what
follows the schema has an opening and a letter, then it has a pattern; a name fits the pattern
exactly if it comes out when the gaps are filled in, not all of them with nothing; and it fits as
well as the share of bytes that are letters of the pattern. -/
theorem table_pattern_fits_its_instances {κ : Type} [Confidence κ] (text : String) :
    (∃ parts : List Part, Reads (unqualified text.toList) parts) ∧
    ∀ parts : List Part, Reads (unqualified text.toList) parts →
      opening <:+: unqualified text.toList → letters parts ≠ [] →
      ∃ p : TablePattern, parse? text = some p ∧ ∀ table : String,
        ((p.similarity? table : Option κ).isSome = true ↔
          ∃ fills : List (List Char), fills.length = parts.count .gap ∧ (∃ f ∈ fills, f ≠ []) ∧
            String.ofList (fill parts fills) = table) ∧
        ∀ x : κ, p.similarity? table = some x →
          x = Confidence.ratio (Text.byteSize (letters parts)) (Text.byteSize table.toList) := by
  refine ⟨exists_reads _, fun parts hreads hopen hletters =>
    ⟨_, parse?_of_reads hreads hletters, fun table => ?_⟩⟩
  have hfits := fits_iff_covers hreads (hreads.gap_mem hopen) table.toList
  simp only [similarity?, literalSize_ofParts]
  constructor
  · rw [Option.isSome_ite, Bool.and_eq_true, decide_eq_true_iff, hfits]
    constructor
    · rintro ⟨⟨fills, hlength, hfill⟩, hlt⟩
      rw [← hfill, size_lt_iff hlength] at hlt
      exact ⟨fills, hlength, hlt, by rw [hfill, String.ofList_toList]⟩
    · rintro ⟨fills, hlength, hsome, rfl⟩
      rw [String.toList_ofList]
      exact ⟨⟨fills, hlength, rfl⟩, (size_lt_iff hlength).mpr hsome⟩
  · intro x hx
    split at hx
    · exact (Option.some.inj hx).symm
    · exact absurd hx (by simp)

/-- A name with two gaps of which the second is not closed, as letters and gaps. -/
def archiveParts : List Part :=
  "log_".toList.map .letter ++ .gap :: ("_a_".toList.map .letter ++ [.gap])

theorem reads_archiveParts :
    Reads (unqualified "Sales.Log_$\x7by\x7d_a_$\x7bx".toList) archiveParts := by
  have htext : unqualified "Sales.Log_$\x7by\x7d_a_$\x7bx".toList =
      "log_".toList ++ (opening ++ ['y'] ++ '\x7d' :: ("_a_".toList ++ (opening ++ ['x']))) := by
    decide +kernel
  rw [htext]
  refine .letter (by decide) (.letter (by decide) (.letter (by decide) (.letter (by decide) ?_)))
  refine .gap (by decide) (.letter (by decide) (.letter (by decide) (.letter (by decide) ?_)))
  exact .openGap (by decide)

/-- The piece after the first gap occurs twice in the name, and the name comes out in two ways. -/
theorem archive_pattern_fits_its_instances :
    ∃ p : TablePattern, parse? "Sales.Log_$\x7by\x7d_a_$\x7bx" = some p ∧
      (p.similarity? "log_1_a_a_" : Option Rat) = some (7 / 10) ∧
      ((p.similarity? "log_1_a_a_" : Option Rat).isSome = true ↔
        ∃ fills : List (List Char), fills.length = archiveParts.count .gap ∧
          (∃ f ∈ fills, f ≠ []) ∧ String.ofList (fill archiveParts fills) = "log_1_a_a_") ∧
      (p.similarity? "log__a_" : Option Rat) = none := by
  obtain ⟨p, hp, hfits⟩ := (@table_pattern_fits_its_instances Rat _
    "Sales.Log_$\x7by\x7d_a_$\x7bx").2 archiveParts reads_archiveParts
      ⟨"log_".toList, "y\x7d_a_$\x7bx".toList, by decide +kernel⟩ (by decide)
  obtain rfl : p = ⟨["log_".toList, "_a_".toList], true, false⟩ :=
    Option.some.inj (hp.symm.trans (by decide +kernel))
  exact ⟨_, hp, by decide +kernel, (hfits "log_1_a_a_").1, by decide +kernel⟩

end AppAtlas
