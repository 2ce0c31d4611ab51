import AppAtlas.Markup.Region
import AppAtlas.Proofs.Text.Cuts
import AppAtlas.Proofs.Text.Offsets

/-!
# What blanking keeps

The regions of a text are blanked character by character, so each character keeps its number, and
line ends stay.  A blank takes one byte, though, and a character of a region may take more.  Then
all that follows moves to the left by the bytes that are lost, and the line index of the text does
not fit the blanked text any more: it gives lines that are too small.  If every blanked character
takes one byte, nothing moves.

* `Blanked`: some characters of a text blanked; `Blanked.trans`, so any number of passes.
* `Aligned`, `Blanked.aligned_iff`: when a blanked text can be used with the line index of the text.
-/

namespace AppAtlas.Markup

open List Text
open Text (byteSize newlines)

/-! ### Regions -/

/-- A text parted at the first place where another one occurs in it. -/
structure PartedAt (needle text before after : List Char) : Prop where
  eq_append : text = before ++ needle ++ after
  first : ∀ before' after' : List Char, text = before' ++ needle ++ after' →
    before.length ≤ before'.length

structure Part where
  isRegion : Bool
  source : List Char
deriving DecidableEq

def Part.shown (p : Part) : List Char :=
  if p.isRegion then p.source.map blankChar else p.source

/-- **A text divided into its regions and what stands between them.**  A region runs from the first
opening mark to the first closing mark behind it, or to the end of the text if there is none. -/
inductive Divided (opening closing : List Char) : List Char → List Part → Prop
  | plain {text : List Char} (h : ¬opening <:+: text) : Divided opening closing text [⟨false, text⟩]
  | unclosed {text before inside : List Char} (hopening : PartedAt opening text before inside)
    (hclosing : ¬closing <:+: inside) :
    Divided opening closing text [⟨false, before⟩, ⟨true, opening ++ inside⟩]
  | closed {text before behind inside rest : List Char} {parts : List Part}
    (hopening : PartedAt opening text before behind) (hclosing : PartedAt closing behind inside rest)
    (h : Divided opening closing rest parts) :
    Divided opening closing text
      (⟨false, before⟩ :: ⟨true, opening ++ inside ++ closing⟩ :: parts)

theorem partedAt_of_cut {needle text before after : List Char}
    (h : cut needle text = some (before, after)) : PartedAt needle text before after := by
  have htext := append_cut h
  refine ⟨htext, ?_⟩
  intro before' after' htext'
  obtain ⟨b, a, hcut, hsuffix⟩ := exists_cut needle before' after'
  rw [← htext', h] at hcut
  obtain ⟨rfl, rfl⟩ := Prod.mk.inj (Option.some.inj hcut)
  have hlength := congrArg length (htext.symm.trans htext')
  have hle := hsuffix.length_le
  simp only [length_append] at hlength
  omega

theorem not_infix_of_cut {needle text : List Char} (h : cut needle text = none) :
    ¬needle <:+: text := by
  rintro ⟨before, after, rfl⟩
  obtain ⟨b, a, hcut, -⟩ := exists_cut needle before after
  rw [h] at hcut
  cases hcut

theorem Divided.sources_eq {opening closing text : List Char} {parts : List Part}
    (h : Divided opening closing text parts) : parts.flatMap Part.source = text := by
  induction h with
  | plain => simp
  | unclosed hopening _ => simp [hopening.eq_append]
  | closed hopening hclosing _ ih =>
    simp [ih, hopening.eq_append, hclosing.eq_append]

/-! ### What is blanked -/

section Blanking

variable {opening : List Char} (closing : List Char)

theorem regionAt_of_isPrefixOf? {cs : List Char} (h : opening.isPrefixOf? cs = none) :
    regionAt opening closing cs = .none := by
  rw [regionAt, h]

theorem regionAt_append (opening behind : List Char) :
    regionAt opening closing (opening ++ behind) = (cut closing behind).elim .unclosed
        fun found => .closed (opening.length + found.1.length + closing.length) := by
  have hprefix : opening.isPrefixOf? (opening ++ behind) = some behind :=
    isPrefixOf?_eq_some_iff_append_eq.mpr rfl
  rw [regionAt, hprefix]
  dsimp only
  cases cut closing behind <;> rfl

theorem blankFrom_nil (hopening : opening ≠ []) (n offset : Nat) :
    blankFrom opening closing n offset [] = ([], []) := by
  have hregion : regionAt opening closing [] = .none := by
    obtain ⟨c, cs, rfl⟩ := exists_cons_of_ne_nil hopening
    rfl
  rw [blankFrom, hregion]

theorem blankFrom_of_cut_eq_none (hopening : opening ≠ []) {text : List Char}
    (h : cut opening text = none) (offset : Nat) :
    (blankFrom opening closing 0 offset text).1 = text := by
  induction text generalizing offset with
  | nil => rw [blankFrom_nil closing hopening]
  | cons c cs ih =>
    rw [cut] at h
    split at h
    · cases h
    next hprefix =>
    have hcs : cut opening cs = none := Option.map_eq_none_iff.mp h
    rw [blankFrom, regionAt_of_isPrefixOf? closing hprefix]
    exact congrArg (c :: ·) (ih hcs _)

theorem blankFrom_of_cut_eq_some (hopening : opening ≠ []) {text before behind : List Char}
    (h : cut opening text = some (before, behind)) (offset : Nat) :
    ∃ offset', (blankFrom opening closing 0 offset text).1 =
      before ++ (blankFrom opening closing 0 offset' (opening ++ behind)).1 := by
  induction text generalizing before offset with
  | nil => simp [cut, hopening] at h
  | cons c cs ih =>
    rw [cut] at h
    split at h
    · next rest hprefix =>
      obtain ⟨rfl, rfl⟩ := Prod.mk.inj (Option.some.inj h)
      exact ⟨offset, by rw [isPrefixOf?_eq_some_iff_append_eq.mp hprefix, nil_append]⟩
    next hprefix =>
    obtain ⟨⟨b, a⟩, hcut, hpair⟩ := Option.map_eq_some_iff.mp h
    obtain ⟨rfl, rfl⟩ := Prod.mk.inj hpair
    obtain ⟨offset', hcs⟩ := ih hcut (offset + c.utf8Size)
    refine ⟨offset', ?_⟩
    rw [blankFrom, regionAt_of_isPrefixOf? closing hprefix]
    exact congrArg (c :: ·) hcs

theorem blankFrom_inside (opening inside rest : List Char) (offset : Nat) :
    ∃ offset', (blankFrom opening closing inside.length offset (inside ++ rest)).1 =
      inside.map blankChar ++ (blankFrom opening closing 0 offset' rest).1 := by
  induction inside generalizing offset with
  | nil => exact ⟨offset, rfl⟩
  | cons c inside ih =>
    obtain ⟨offset', hinside⟩ := ih (offset + c.utf8Size)
    exact ⟨offset', congrArg (blankChar c :: ·) hinside⟩

/-- **Blanking a text blanks the regions it is divided into**, and nothing else. -/
theorem exists_divided (hopening : opening ≠ []) (offset : Nat) (text : List Char) :
    ∃ parts, Divided opening closing text parts ∧
      (blankFrom opening closing 0 offset text).1 = parts.flatMap Part.shown := by
  induction hn : text.length using Nat.strong_induction_on generalizing text offset with
  | _ n ih =>
    subst hn
    cases hcut : cut opening text with
    | none =>
      refine ⟨[⟨false, text⟩], .plain (not_infix_of_cut hcut), ?_⟩
      rw [blankFrom_of_cut_eq_none closing hopening hcut]
      simp [Part.shown]
    | some found =>
      obtain ⟨before, behind⟩ := found
      obtain ⟨offset₁, hbefore⟩ := blankFrom_of_cut_eq_some closing hopening hcut offset
      have hparted := partedAt_of_cut hcut
      have hregion := regionAt_append closing opening behind
      -- the mark is not empty, so it is the first character that decides
      obtain ⟨c, cs, rfl⟩ := exists_cons_of_ne_nil hopening
      rw [cons_append] at hregion hbefore
      cases hend : cut closing behind with
      | none =>
        refine ⟨_, .unclosed hparted (not_infix_of_cut hend), ?_⟩
        rw [hbefore, blankFrom, hregion, hend]
        simp [Part.shown]
      | some found =>
        obtain ⟨inside, rest⟩ := found
        have hbehind := append_cut hend
        have hwhole : cs ++ behind = cs ++ inside ++ closing ++ rest := by
          rw [hbehind]
          simp
        have hshorter : rest.length < text.length := by
          rw [hparted.eq_append, hbehind]
          simp only [length_append, length_cons]
          omega
        have hlength : (c :: cs).length + inside.length + closing.length =
            (cs ++ inside ++ closing).length + 1 := by
          simp only [length_append, length_cons]
          omega
        obtain ⟨offset₂, hinside⟩ := blankFrom_inside closing (c :: cs)
          (cs ++ inside ++ closing) rest (offset₁ + c.utf8Size)
        obtain ⟨parts, hparts, hshown⟩ := ih rest.length hshorter offset₂ rest rfl
        refine ⟨_, .closed hparted (partedAt_of_cut hend) hparts, ?_⟩
        rw [hbefore, blankFrom, hregion, hend, Option.elim_some, hlength, hwhole]
        simp only [hinside, hshown]
        simp [Part.shown]

end Blanking

/-! ### Any number of passes -/

def Blanked : List Char → List Char → Prop :=
  Forall₂ fun c d => d = c ∨ d = blankChar c

theorem utf8Size_blankChar (c : Char) : (blankChar c).utf8Size = 1 := by
  rw [blankChar]
  split <;> rfl

theorem blankChar_eq_newline_iff {c : Char} : blankChar c = '\n' ↔ c = '\n' := by
  rw [blankChar]
  split <;> simp_all

theorem blankChar_blankChar (c : Char) : blankChar (blankChar c) = blankChar c := by
  by_cases hc : c = '\n'
  · subst hc
    rfl
  · simp [blankChar, hc]

namespace Blanked

variable {text out : List Char}

theorem refl (text : List Char) : Blanked text text := by
  induction text with
  | nil => exact .nil
  | cons c cs ih => exact .cons (.inl rfl) ih

theorem map_blankChar (text : List Char) : Blanked text (text.map blankChar) := by
  induction text with
  | nil => exact .nil
  | cons c cs ih => exact .cons (.inr rfl) ih

theorem trans {a b c : List Char} (hab : Blanked a b) (hbc : Blanked b c) : Blanked a c := by
  induction hab generalizing c with
  | nil =>
    cases hbc
    exact .nil
  | cons hfirst _ ih =>
    cases hbc with
    | cons hsecond hrest =>
      refine .cons ?_ (ih hrest)
      rcases hfirst with rfl | rfl <;> rcases hsecond with rfl | rfl
      · exact .inl rfl
      · exact .inr rfl
      · exact .inr rfl
      · exact .inr (blankChar_blankChar _)

theorem shown (parts : List Part) :
    Blanked (parts.flatMap Part.source) (parts.flatMap Part.shown) := by
  induction parts with
  | nil => exact .nil
  | cons p parts ih =>
    rw [flatMap_cons, flatMap_cons]
    refine rel_append ?_ ih
    rw [Part.shown]
    split
    · exact map_blankChar p.source
    · exact refl p.source

section

variable (h : Blanked text out)

include h

theorem length_eq : out.length = text.length :=
  (Forall₂.length_eq h).symm

theorem take (n : Nat) : Blanked (text.take n) (out.take n) :=
  forall₂_take n h

theorem getElem?_eq_newline_iff (i : Nat) : out[i]? = some '\n' ↔ text[i]? = some '\n' := by
  induction h generalizing i with
  | nil => exact Iff.rfl
  | @cons c d _ _ hcd _ ih =>
    cases i with
    | succ i => simpa using ih i
    | zero =>
      rcases hcd with rfl | rfl
      · exact Iff.rfl
      · simp [blankChar_eq_newline_iff]

theorem newlines_eq : newlines out = newlines text := by
  induction h with
  | nil => rfl
  | @cons c d _ _ hcd _ ih =>
    rw [newlines] at ih
    rw [newlines, newlines, countP_cons, countP_cons, ih]
    rcases hcd with rfl | rfl
    · rfl
    · simp [newlines, blankChar_eq_newline_iff]

theorem byteSize_le : byteSize out ≤ byteSize text := by
  induction h with
  | nil => exact Nat.le_refl 0
  | @cons c d _ _ hcd _ ih =>
    have hc := c.utf8Size_pos
    rw [byteSize_cons, byteSize_cons]
    rcases hcd with rfl | rfl
    · omega
    · rw [utf8Size_blankChar]
      omega

/-- No character can make up for the bytes that another one lost. -/
theorem alikeInSpan_of_byteSize_eq (hsize : byteSize out = byteSize text) :
    AlikeInSpan text out := by
  induction h with
  | nil => exact .nil
  | @cons c d _ _ hcd hrest ih =>
    have hle := byteSize_le hrest
    have hc := c.utf8Size_pos
    rw [byteSize_cons, byteSize_cons] at hsize
    rcases hcd with rfl | rfl
    · exact .cons ⟨rfl, Iff.rfl⟩ (ih (by omega))
    · rw [utf8Size_blankChar] at hsize
      exact .cons ⟨by rw [utf8Size_blankChar]; omega, blankChar_eq_newline_iff⟩ (ih (by omega))

/-- Places have the same line number in both texts, each with its own offsets. -/
theorem lineOf_take (n : Nat) : (Lines.of out).lineOf (byteSize (out.take n)) =
      (Lines.of text).lineOf (byteSize (text.take n)) := by
  have hline : ∀ cs,
      (Lines.of cs).lineOf (byteSize (cs.take n)) = newlines (cs.take n) + 1 := by
    intro cs
    have := Lines.lineOf_append (cs.take n) (cs.drop n)
    rwa [take_append_drop] at this
  rw [hline, hline, (h.take n).newlines_eq]

end

end Blanked

/-! ### Texts and their line indexes -/

/-- **A blanked text with all that is left at its place**, so that its offsets can be looked up in
the line index of the text. -/
structure Aligned (text out : List Char) : Prop where
  byteSize_eq : byteSize out = byteSize text
  newlineOffsets_eq : newlineOffsetsFrom 0 out = newlineOffsetsFrom 0 text
  offset_eq : ∀ n : Nat, byteSize (out.take n) = byteSize (text.take n)
  lineOf_eq : ∀ offset : Nat,
    (Lines.of out).lineOf offset = (Lines.of text).lineOf offset

theorem aligned_of_alikeInSpan {text out : List Char} (h : AlikeInSpan text out) :
    Aligned text out where
  byteSize_eq := h.byteSize_eq
  newlineOffsets_eq := h.newlineOffsetsFrom_eq 0
  offset_eq n := (h.take n).byteSize_eq
  lineOf_eq offset := by rw [Lines.of_eq_of_alikeInSpan h]

/-- Each character that is not what it was took one byte. -/
def LosesNoBytes (text out : List Char) : Prop :=
  ∀ p ∈ text.zip out, p.2 ≠ p.1 → p.1.utf8Size = 1

theorem Blanked.losesNoBytes_iff {text out : List Char} (h : Blanked text out) :
    LosesNoBytes text out ↔ AlikeInSpan text out := by
  induction h with
  | nil => exact ⟨fun _ => .nil, fun _ p hp => absurd hp not_mem_nil⟩
  | @cons c d cs ds hcd _ ih =>
    have hhead : (d ≠ c → c.utf8Size = 1) ↔ d.utf8Size = c.utf8Size ∧ (d = '\n' ↔ c = '\n') := by
      rcases hcd with rfl | rfl
      · simp
      · rw [utf8Size_blankChar]
        constructor
        · intro hone
          refine ⟨?_, blankChar_eq_newline_iff⟩
          by_cases hsame : blankChar c = c
          · rw [← hsame, utf8Size_blankChar]
          · exact (hone hsame).symm
        · rintro ⟨hone, -⟩ -
          exact hone.symm
    rw [LosesNoBytes, zip_cons_cons, forall_mem_cons, ← LosesNoBytes, ih, hhead]
    constructor
    · rintro ⟨hfirst, hrest⟩
      exact .cons hfirst hrest
    · rintro (_ | ⟨hfirst, hrest⟩)
      exact ⟨hfirst, hrest⟩

/-- **When a blanked text is aligned**: exactly if no blanked character took more than one byte. -/
theorem Blanked.aligned_iff {text out : List Char} (h : Blanked text out) :
    Aligned text out ↔ LosesNoBytes text out := by
  rw [h.losesNoBytes_iff]
  exact ⟨fun haligned => h.alikeInSpan_of_byteSize_eq haligned.byteSize_eq, aligned_of_alikeInSpan⟩

/-- A text with the regions of several marks blanked, one pair of marks after the other. -/
def blankAll (marks : List (List Char × List Char)) (text : List Char) : List Char :=
  marks.foldl (fun text m => (blankRegions m.1 m.2 text).1) text

theorem blanked_blankAll {marks : List (List Char × List Char)} (hmarks : ∀ m ∈ marks, m.1 ≠ [])
    (text : List Char) : Blanked text (blankAll marks text) := by
  induction marks generalizing text with
  | nil => exact .refl text
  | cons m marks ih =>
    obtain ⟨hm, hmarks⟩ := forall_mem_cons.mp hmarks
    obtain ⟨parts, hparts, hshown⟩ := exists_divided m.2 hm 0 text
    have hfirst : Blanked text (blankRegions m.1 m.2 text).1 := by
      rw [blankRegions, hshown]
      conv_lhs => rw [← hparts.sources_eq]
      exact .shown parts
    exact hfirst.trans (ih hmarks _)

/-- **What blanking keeps.**  Each pass blanks the regions between its marks and nothing else.
After any number of passes each character has its number, line ends stand where they stood, and the
places of the blanked text have their line numbers in its own line index.  In the line index of the
text they have at most these, and the blanked text is aligned with the text, so that they have
exactly these at every offset, if and only if every blanked character took one byte. -/
theorem blanked_text_aligned_iff_one_byte_blanked {marks : List (List Char × List Char)}
    (hmarks : ∀ m ∈ marks, m.1 ≠ [] ∧ m.2 ≠ []) (text : List Char) :
    (∀ m ∈ marks, ∀ cs : List Char, ∃ parts : List Part, Divided m.1 m.2 cs parts ∧
      parts.flatMap Part.source = cs ∧ (blankRegions m.1 m.2 cs).1 = parts.flatMap Part.shown) ∧
    (blankAll marks text).length = text.length ∧
    (∀ i : Nat, (blankAll marks text)[i]? = some '\n' ↔ text[i]? = some '\n') ∧
    (∀ n : Nat, (Text.Lines.of (blankAll marks text)).lineOf (byteSize ((blankAll marks text).take n)) =
      (Text.Lines.of text).lineOf (byteSize (text.take n))) ∧
    (∀ n : Nat, (Text.Lines.of text).lineOf (byteSize ((blankAll marks text).take n)) ≤
      (Text.Lines.of text).lineOf (byteSize (text.take n))) ∧
    (Aligned text (blankAll marks text) ↔ LosesNoBytes text (blankAll marks text)) := by
  have hblanked : Blanked text (blankAll marks text) :=
    blanked_blankAll (fun m hm => (hmarks m hm).1) text
  refine ⟨?_, hblanked.length_eq, hblanked.getElem?_eq_newline_iff, hblanked.lineOf_take, ?_,
    hblanked.aligned_iff⟩
  · intro m hm cs
    obtain ⟨parts, hparts, hshown⟩ := exists_divided m.2 (hmarks m hm).1 0 cs
    exact ⟨parts, hparts, hparts.sources_eq, hshown⟩
  · intro n
    exact Text.Lines.lineOf_mono _ (hblanked.take n).byteSize_le

def pageMarks : List (List Char × List Char) :=
  [("<%--".toList, "--%>".toList), ("<!--".toList, "-->".toList)]

/-- A wide character outside comments does no harm: here are two comments, the second one not
closed. -/
theorem comments_blanked_in_place :
    (∀ m ∈ pageMarks, m.1 ≠ [] ∧ m.2 ≠ []) ∧
      blankAll pageMarks "é<%-- a\n--%><!--b\n".toList = "é      \n         \n".toList ∧
      Aligned "é<%-- a\n--%><!--b\n".toList
        (blankAll pageMarks "é<%-- a\n--%><!--b\n".toList) := by
  have hmarks : ∀ m ∈ pageMarks, m.1 ≠ [] ∧ m.2 ≠ [] := by simp [pageMarks]
  have hblank : blankAll pageMarks "é<%-- a\n--%><!--b\n".toList =
      "é      \n         \n".toList := by decide
  refine ⟨hmarks, hblank, ?_⟩
  refine (blanked_text_aligned_iff_one_byte_blanked hmarks _).2.2.2.2.2.mpr ?_
  rw [hblank]
  exact @of_decide_eq_true _ (List.decidableBAll _ _) rfl

/-- **A wide character in a comment moves what follows**: the blanked text is one byte shorter than
the text, and the line index of the text puts its second line on the first. -/
theorem line_lost_behind_wide_comment :
    blankAll [("<!--".toList, "-->".toList)] "<!--é-->\nx".toList = "        \nx".toList ∧
      byteSize "<!--é-->\nx".toList = 11 ∧ byteSize "        \nx".toList = 10 ∧
      (Text.Lines.of "        \nx".toList).lineOf 9 = 2 ∧
      (Text.Lines.of "<!--é-->\nx".toList).lineOf 9 = 1 := by
  decide

end AppAtlas.Markup
