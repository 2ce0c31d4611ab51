import AppAtlas.Proofs.Sql.Layout
import AppAtlas.Proofs.Text.Cuts
import AppAtlas.Sql.Script

/-!
# What is left without comments

Whether a part of a script is a statement is decided by taking its comments out and looking whether
anything is left.  That is done in two passes: first each line is cut at its first `--`, then what
stands in block comments is dropped.  `shows` is both of them with rules for one character at a
time. The first pass does not know block comments: a `--` in one takes the end of the comment out
with the rest of its line, and the second pass then looks for an end further on.

* `isEmpty_trim_stripComments`: the test for a statement is `shows`.
* `shows_inside`, `shows_blockComment`: one character in a block comment, and a whole one.
-/

namespace AppAtlas.Sql.Script

open List Text

/-! ### The second pass -/

def seen (inside : Bool) (text : List Char) : Bool :=
  (outsideBlocks inside text).any fun c => !Text.isBlank c

/-- A character by which no comment starts or ends. -/
def Bare (c : Char) (next : Option Char) : Prop :=
  (c = '/' → next ≠ some '*') ∧ (c = '*' → next ≠ some '/')

theorem bare_of_isBlank {c : Char} (h : isBlank c) (next : Option Char) : Bare c next := by
  constructor
  · rintro rfl
    cases h
  · rintro rfl
    cases h

section Seen

variable (inside : Bool) (cs : List Char)

@[simp] theorem seen_nil : seen inside [] = false := rfl

@[simp] theorem seen_open : seen inside ('/' :: '*' :: cs) = seen true cs := by
  simp [seen, outsideBlocks]

@[simp] theorem seen_closeOpen :
    seen inside ('*' :: '/' :: '*' :: cs) = (!inside || seen true cs) := by
  have hstar : isBlank '*' = false := by decide
  cases inside <;> simp [seen, outsideBlocks, hstar]

variable {cs}

theorem seen_close (h : cs.head? ≠ some '*') :
    seen inside ('*' :: '/' :: cs) = (!inside || seen false cs) := by
  have hstar : isBlank '*' = false := by decide
  rw [seen, outsideBlocks]
  · cases inside <;> simp [seen, hstar]
  · rintro ds rfl
    exact h rfl

theorem seen_bare {c : Char} (h : Bare c cs.head?) :
    seen inside (c :: cs) = (!(inside || isBlank c) || seen inside cs) := by
  rw [seen, outsideBlocks]
  · cases inside <;> simp [seen]
  · rintro ds hc rfl
    exact h.1 hc rfl
  · rintro ds hc rfl
    exact h.2 hc rfl
  · rintro ds hc rfl
    exact h.2 hc rfl

end Seen

theorem seen_of_not_isBlank {c : Char} {cs : List Char} (hc : isBlank c = false)
    (hopen : c = '/' → cs.head? ≠ some '*') : seen false (c :: cs) := by
  by_cases hclose : c = '*' ∧ cs.head? = some '/'
  · obtain ⟨rfl, hhead⟩ := hclose
    obtain ⟨ds, rfl⟩ := head?_eq_some_iff.mp hhead
    by_cases hstar : ds.head? = some '*'
    · obtain ⟨es, rfl⟩ := head?_eq_some_iff.mp hstar
      simp
    · simp [seen_close false hstar]
  · rw [seen_bare false ⟨hopen, fun h hhead => hclose ⟨h, hhead⟩⟩]
    simp [hc]

theorem head?_append_blank {cs r : List Char} {b m : Char} (hb : isBlank b)
    (hm : isBlank m = false) (h : cs.head? ≠ some m) : (cs ++ b :: r).head? ≠ some m := by
  cases cs with
  | nil =>
    rintro ⟨⟩
    rw [hb] at hm
    cases hm
  | cons c cs => exact h

theorem head?_ne_some {cs : List Char} {m : Char} (h : ∀ ds, cs = m :: ds → False) :
    cs.head? ≠ some m := by
  intro hhead
  obtain ⟨ds, hds⟩ := head?_eq_some_iff.mp hhead
  exact h ds hds

theorem exists_seen_append (inside : Bool) (a : List Char) : ∃ inside', ∀ b r, isBlank b →
      seen inside (a ++ b :: r) = (seen inside a || seen inside' r) := by
  have hslash : isBlank '/' = false := by decide
  have hstar : isBlank '*' = false := by decide
  fun_induction outsideBlocks inside a with
  | case1 inside =>
    refine ⟨inside, fun b r hb => ?_⟩
    rw [nil_append, seen_bare inside (bare_of_isBlank hb _)]
    simp [hb]
  | case2 inside cs ih => simpa using ih
  | case3 inside cs ih =>
    obtain ⟨inside', ih⟩ := ih
    refine ⟨inside', fun b r hb => ?_⟩
    simp [ih b r hb, Bool.or_assoc]
  | case4 inside cs hcs ih =>
    obtain ⟨inside', ih⟩ := ih
    refine ⟨inside', fun b r hb => ?_⟩
    have hnext := head?_ne_some hcs
    rw [cons_append, cons_append, seen_close inside (head?_append_blank hb hstar hnext),
      ih b r hb, seen_close inside hnext, Bool.or_assoc]
  | case5 inside c cs hopen _ hclose ih =>
    -- white space behind the last character makes no opening or end of it
    obtain ⟨inside', ih⟩ := ih
    refine ⟨inside', fun b r hb => ?_⟩
    have hbare : Bare c cs.head? :=
      ⟨fun hc => head?_ne_some fun ds => hopen ds hc, fun hc => head?_ne_some fun ds => hclose ds hc⟩
    have hbare' : Bare c (cs ++ b :: r).head? :=
      ⟨fun hc => head?_append_blank hb hstar (hbare.1 hc),
        fun hc => head?_append_blank hb hslash (hbare.2 hc)⟩
    rw [cons_append, seen_bare inside hbare', ih b r hb, seen_bare inside hbare, Bool.or_assoc]

theorem seen_blank (inside : Bool) {b : Char} (hb : isBlank b) (r : List Char) :
    seen inside (b :: r) = seen inside r := by
  rw [seen_bare inside (bare_of_isBlank hb _)]
  simp [hb]

theorem seen_concat_blank (inside : Bool) (a : List Char) {b : Char} (hb : isBlank b) :
    seen inside (a ++ [b]) = seen inside a := by
  obtain ⟨inside', h⟩ := exists_seen_append inside a
  simpa using h b [] hb

/-! ### The first pass -/

def cutLine (line : List Char) : List Char :=
  match cut ['-', '-'] line with
  | some (before, _) => before
  | none => line

/-- A text whose lines are cut at their first `--`; `skipping` says that it starts behind one. -/
def shorten (skipping : Bool) : List Char → List Char
  | [] => []
  | c :: cs =>
    if c = '\n' then '\n' :: shorten false cs
    else if skipping = true ∨ c = '-' ∧ cs.head? = some '-' then shorten true cs
    else c :: shorten false cs

theorem cutLine_cons (c : Char) (cs : List Char) :
    cutLine (c :: cs) = if c = '-' ∧ cs.head? = some '-' then [] else c :: cutLine cs := by
  by_cases hdashes : c = '-' ∧ cs.head? = some '-'
  · obtain ⟨rfl, hhead⟩ := hdashes
    obtain ⟨ds, rfl⟩ := head?_eq_some_iff.mp hhead
    simp [cutLine, cut, isPrefixOf?]
  · have hopen : ['-', '-'].isPrefixOf? (c :: cs) = none := by
      cases cs with
      | nil => simp [isPrefixOf?]
      | cons d ds =>
        have hpair : '-' = c → '-' ≠ d := by
          rintro rfl rfl
          exact hdashes ⟨rfl, rfl⟩
        simpa [isPrefixOf?] using hpair
    rw [cutLine, cut, hopen, if_neg hdashes, cutLine]
    cases cut ['-', '-'] cs <;> rfl

theorem head?_segments {cs s : List Char} {ss : List (List Char)} {m : Char} (hm : m ≠ '\n')
    (h : segments (· == '\n') cs = s :: ss) : s.head? = some m ↔ cs.head? = some m := by
  cases cs with
  | nil =>
    obtain ⟨rfl, -⟩ : [] = s ∧ [] = ss := by simpa [segments] using h
    rfl
  | cons c cs =>
    obtain ⟨r, rs, hcs⟩ := exists_cons_of_ne_nil (segments_ne_nil (· == '\n') cs)
    by_cases hc : c = '\n'
    · subst hc
      rw [segments_cons_self] at h
      obtain ⟨rfl, -⟩ := cons.inj h
      simpa using Ne.symm hm
    · rw [segments_cons_of_ne hc hcs] at h
      obtain ⟨rfl, -⟩ := cons.inj h
      rfl

theorem shorten_eq_joinWith (cs : List Char) {s : List Char} {ss : List (List Char)}
    (h : segments (· == '\n') cs = s :: ss) :
    shorten false cs = joinWith ['\n'] ((s :: ss).map cutLine) ∧
      shorten true cs = joinWith ['\n'] ([] :: ss.map cutLine) := by
  induction cs generalizing s ss with
  | nil =>
    obtain ⟨rfl, rfl⟩ : [] = s ∧ [] = ss := by simpa [segments] using h
    exact ⟨rfl, rfl⟩
  | cons c cs ih =>
    obtain ⟨r, rs, hcs⟩ := exists_cons_of_ne_nil (segments_ne_nil (· == '\n') cs)
    obtain ⟨hfalse, htrue⟩ := ih hcs
    by_cases hc : c = '\n'
    · subst hc
      rw [segments_cons_self, hcs] at h
      obtain ⟨rfl, rfl⟩ := cons.inj h
      have hline : '\n' :: shorten false cs = joinWith ['\n'] ([] :: (r :: rs).map cutLine) := by
        rw [hfalse, map_cons, joinWith_cons, joinWith_cons]
        rfl
      exact ⟨by rw [shorten, if_pos rfl, hline]; rfl, by rw [shorten, if_pos rfl, hline]⟩
    · rw [segments_cons_of_ne hc hcs] at h
      obtain ⟨rfl, rfl⟩ := cons.inj h
      have hskip : shorten true (c :: cs) = shorten true cs := by
        rw [shorten, if_neg hc, if_pos (.inl rfl)]
      refine ⟨?_, hskip.trans htrue⟩
      have hhead := head?_segments (m := '-') (by decide) hcs
      rw [shorten, if_neg hc, map_cons, cutLine_cons]
      by_cases hdashes : c = '-' ∧ cs.head? = some '-'
      · rw [if_pos (.inr hdashes), if_pos ⟨hdashes.1, hhead.mpr hdashes.2⟩, htrue]
      · rw [if_neg (by simpa using hdashes), if_neg (by rwa [hhead]), hfalse, map_cons,
          joinWith_cons, joinWith_cons]
        rfl

/-! ### Lines -/

def seenLines (inside : Bool) (lines : List (List Char)) : Bool :=
  seen inside (joinWith ['\n'] (lines.map cutLine))

theorem seenLines_cons (inside : Bool) (line : List Char) (lines : List (List Char)) :
    seenLines inside (line :: lines) =
      seen inside (cutLine line ++ '\n' :: joinWith ['\n'] (lines.map cutLine)) := by
  rw [seenLines, map_cons, joinWith_cons]
  cases lines with
  | nil =>
    rw [map_nil, flatMap_nil, append_nil]
    exact (seen_concat_blank inside (cutLine line) (by decide)).symm
  | cons l ls =>
    rw [map_cons, flatMap_cons, joinWith_cons]
    rfl

theorem cutLine_concat (line : List Char) :
    cutLine (line ++ ['\r']) = cutLine line ∨ cutLine (line ++ ['\r']) = cutLine line ++ ['\r'] := by
  induction line with
  | nil => exact .inr rfl
  | cons c cs ih =>
    have hhead : (cs ++ ['\r']).head? = some '-' ↔ cs.head? = some '-' := by
      cases cs <;> simp
    rw [cons_append, cutLine_cons, cutLine_cons]
    by_cases hdashes : c = '-' ∧ cs.head? = some '-'
    · exact .inl (by rw [if_pos hdashes, if_pos ⟨hdashes.1, hhead.mpr hdashes.2⟩])
    · rw [if_neg hdashes, if_neg (by rwa [hhead])]
      exact ih.imp (congrArg _) (congrArg _)

/-- A carriage return at the end of a line is white space, or behind a `--`. -/
theorem exists_seenLines_cons (inside : Bool) (line : List Char) : ∃ inside',
    ∀ lines : List (List Char),
      seenLines inside (line :: lines) = (seen inside (cutLine line) || seenLines inside' lines) ∧
      seenLines inside ((line ++ ['\r']) :: lines) =
        (seen inside (cutLine line) || seenLines inside' lines) := by
  obtain ⟨inside', h⟩ := exists_seen_append inside (cutLine line)
  refine ⟨inside', fun lines => ?_⟩
  have hline : seen inside (cutLine line ++ '\n' :: joinWith ['\n'] (lines.map cutLine)) =
      (seen inside (cutLine line) || seenLines inside' lines) := h '\n' _ (by decide)
  rw [seenLines_cons, seenLines_cons]
  refine ⟨hline, ?_⟩
  rcases cutLine_concat line with hcut | hcut
  · rw [hcut, hline]
  · rw [hcut, append_assoc, singleton_append, h '\r' _ (by decide),
      seen_blank inside' (by decide), seenLines]

theorem seenLines_go (inside : Bool) (lines : List (List Char)) :
    seenLines inside (linesOf.go lines) = seenLines inside lines := by
  fun_induction linesOf.go lines generalizing inside with
  | case1 => rfl
  | case2 last hempty =>
    obtain rfl := isEmpty_iff.mp hempty
    rfl
  | case3 => rfl
  | case4 line rest _ ih =>
    cases hstrip : stripEnd? ['\r'] line with
    | none =>
      obtain ⟨inside', h⟩ := exists_seenLines_cons inside line
      rw [Option.getD_none, (h _).1, (h _).1, ih]
    | some front =>
      obtain ⟨inside', h⟩ := exists_seenLines_cons inside front
      rw [Option.getD_some, (h _).1, ← append_stripEnd? hstrip, (h _).2, ih]

/-! ### Both passes -/

/-- Whether anything is left of a text without its comments.  The text starts in a block comment if
`inside`, and behind a `--` if `skipping`. -/
def shows (inside skipping : Bool) (text : List Char) : Bool :=
  seen inside (shorten skipping text)

theorem trim_eq_nil_iff {cs : List Char} : trim cs = [] ↔ ∀ c ∈ cs, isBlank c := by
  rw [trim, trimWhere, dropEnd, reverse_eq_nil_iff, dropWhile_eq_nil_iff]
  constructor
  · intro h c hc
    rw [← takeWhile_append_dropWhile (p := isBlank) (l := cs)] at hc
    rcases mem_append.mp hc with hc | hc
    · exact mem_takeWhile_imp hc
    · exact h c (mem_reverse.mpr hc)
  · intro h c hc
    exact h c ((dropWhile_suffix _).subset (mem_reverse.mp hc))

/-- **The test for a statement**, in one go over the text. -/
theorem isEmpty_trim_stripComments (text : List Char) :
    (trim (stripComments text)).isEmpty = !shows false false text := by
  obtain ⟨s, ss, hsegments⟩ := exists_cons_of_ne_nil (segments_ne_nil (· == '\n') text)
  have hlines : seenLines false (linesOf text) = shows false false text := by
    rw [linesOf, seenLines_go, hsegments, shows, (shorten_eq_joinWith text hsegments).1,
      seenLines]
  have hleft : (stripComments text).any (fun c => !isBlank c) = shows false false text := hlines
  rw [← hleft, Bool.eq_iff_iff, List.isEmpty_iff, trim_eq_nil_iff]
  simp

section Shows

variable (inside : Bool) (cs : List Char)

@[simp] theorem shows_nil (skipping : Bool) : shows inside skipping [] = false := rfl

@[simp] theorem shows_lineEnd (skipping : Bool) :
    shows inside skipping ('\n' :: cs) = shows inside false cs := by
  rw [shows, shorten, if_pos rfl, seen_blank inside (by decide), shows]

theorem shows_skip {c : Char} (hc : c ≠ '\n') :
    shows inside true (c :: cs) = shows inside true cs := by
  rw [shows, shorten, if_neg hc, if_pos (.inl rfl), shows]

@[simp] theorem shows_dashes : shows inside false ('-' :: '-' :: cs) = shows inside true cs := by
  rw [shows, shorten, if_neg (by decide), if_pos (.inr ⟨rfl, rfl⟩), ← shows,
    shows_skip inside cs (by decide)]

theorem shorten_false_cons {c : Char} (hc : c ≠ '\n') (hdashes : c = '-' → cs.head? ≠ some '-') :
    shorten false (c :: cs) = c :: shorten false cs := by
  rw [shorten, if_neg hc, if_neg]
  simpa using hdashes

@[simp] theorem shows_open : shows inside false ('/' :: '*' :: cs) = shows true false cs := by
  rw [shows, shorten_false_cons _ (by decide) (by simp), shorten_false_cons _ (by decide) (by simp),
    seen_open, shows]

theorem head?_shorten_true {m : Char} (hm : m ≠ '\n') : (shorten true cs).head? ≠ some m := by
  induction cs with
  | nil => simp [shorten]
  | cons c cs ih =>
    by_cases hc : c = '\n'
    · simpa [shorten, hc] using Ne.symm hm
    · rwa [shorten, if_neg hc, if_pos (.inl rfl)]

theorem head?_shorten {m : Char} (hm : m ≠ '\n') (h : cs.head? ≠ some m) :
    (shorten false cs).head? ≠ some m := by
  cases cs with
  | nil => simp [shorten]
  | cons c cs =>
    by_cases hc : c = '\n'
    · simpa [shorten, hc] using Ne.symm hm
    · rw [shorten, if_neg hc]
      split
      · exact head?_shorten_true cs hm
      · exact h

theorem shows_close (h : cs.head? ≠ some '*') :
    shows inside false ('*' :: '/' :: cs) = (!inside || shows false false cs) := by
  rw [shows, shorten_false_cons _ (by decide) (by simp), shorten_false_cons _ (by decide) (by simp),
    seen_close inside (head?_shorten cs (by decide) h), shows]

theorem shows_bare {c : Char} (hc : c ≠ '\n') (hdashes : c = '-' → cs.head? ≠ some '-')
    (hbare : Bare c cs.head?) :
    shows inside false (c :: cs) = (!(inside || isBlank c) || shows inside false cs) := by
  have hshort : Bare c (shorten false cs).head? :=
    ⟨fun h => head?_shorten cs (by decide) (hbare.1 h),
      fun h => head?_shorten cs (by decide) (hbare.2 h)⟩
  rw [shows, shorten_false_cons cs hc hdashes, seen_bare inside hshort, shows]

theorem shows_of_not_isBlank {c : Char} (hc : isBlank c = false)
    (hdashes : c = '-' → cs.head? ≠ some '-') (hopen : c = '/' → cs.head? ≠ some '*') :
    shows false false (c :: cs) := by
  have hline : c ≠ '\n' := by
    rintro rfl
    cases hc
  rw [shows, shorten_false_cons cs hline hdashes]
  exact seen_of_not_isBlank hc fun hslash => head?_shorten cs (by decide) (hopen hslash)

end Shows

/-! ### Block comments -/

/-- Whether a line comment goes on or starts at a character. -/
def skips (skipping : Bool) (c : Char) (next : Option Char) : Bool :=
  c != '\n' && (skipping || (c == '-' && next == some '-'))

/-- One character inside a block comment, unless it ends there or ends right behind an opening. -/
theorem shows_inside (skipping : Bool) {c : Char} {cs : List Char}
    (hclose : ¬(c = '*' ∧ cs.head? = some '/'))
    (hopen : ∀ ds, c = '/' → cs = '*' :: ds → ds.head? ≠ some '/') :
    shows true skipping (c :: cs) = shows true (skips skipping c cs.head?) cs := by
  by_cases hline : c = '\n'
  · subst hline
    exact shows_lineEnd true cs skipping
  cases skipping with
  | true =>
    have hskips : skips true c cs.head? = true := by simpa [skips] using hline
    rw [shows_skip true cs hline, hskips]
  | false =>
    by_cases hdashes : c = '-' ∧ cs.head? = some '-'
    · obtain ⟨rfl, hhead⟩ := hdashes
      obtain ⟨ds, rfl⟩ := head?_eq_some_iff.mp hhead
      rw [shows_dashes]
      exact (shows_skip true ds (by decide)).symm
    have hskips : skips false c cs.head? = false := by simpa [skips] using fun _ => hdashes
    rw [hskips]
    by_cases hslash : c = '/' ∧ cs.head? = some '*'
    · obtain ⟨rfl, hhead⟩ := hslash
      obtain ⟨ds, rfl⟩ := head?_eq_some_iff.mp hhead
      rw [shows_open, shows_bare true ds (by decide) (by simp) ⟨by simp, fun _ => hopen ds rfl rfl⟩]
      rfl
    · rw [shows_bare true cs hline (fun hc hhead => hdashes ⟨hc, hhead⟩)
        ⟨fun hc hhead => hslash ⟨hc, hhead⟩, fun hc hhead => hclose ⟨hc, hhead⟩⟩]
      rfl

theorem shows_openComment {cs : List Char} (h : commentSize? cs = none) (skipping : Bool) :
    shows true skipping cs = false := by
  induction cs generalizing skipping with
  | nil => rfl
  | cons c cs ih =>
    rw [commentSize?_cons_eq_none] at h
    rw [shows_inside skipping h.1, ih h.2]
    rintro ds - rfl hhead
    exact (commentSize?_cons_eq_none.mp h.2).1 ⟨rfl, hhead⟩

/-- A block comment whose inside is `body` ends plainly: behind each `--` in it a line ends, and the
slash of an opening is not that of the end. -/
structure EndsPlainly (skipping : Bool) (body : List Char) : Prop where
  lineEnds : ∀ before after : List Char, body = before ++ '-' :: '-' :: after → '\n' ∈ after
  unskipped : skipping = true → '\n' ∈ body
  notOpening : body.getLast? ≠ some '/'

theorem EndsPlainly.tail {skipping : Bool} {c : Char} {body : List Char}
    (h : EndsPlainly skipping (c :: body)) (rest : List Char) :
    EndsPlainly (skips skipping c (body ++ '*' :: rest).head?) body where
  lineEnds := fun before after heq => h.lineEnds (c :: before) after (congrArg _ heq)
  unskipped := by
    intro hskips
    simp only [skips, Bool.and_eq_true, Bool.or_eq_true, bne_iff_ne, beq_iff_eq] at hskips
    obtain ⟨hline, hskipping | ⟨rfl, hhead⟩⟩ := hskips
    · exact (mem_cons.mp (h.unskipped hskipping)).resolve_left (Ne.symm hline)
    · cases body with
      | nil => simp at hhead
      | cons d body =>
        obtain rfl : d = '-' := by simpa using hhead
        exact mem_cons_of_mem _ (h.lineEnds [] body rfl)
  notOpening := by
    intro hlast
    refine h.notOpening ?_
    rw [getLast?_cons, hlast]
    rfl

/-- **A block comment** leaves either the inside of a block comment or no line comment behind it.
If it ends plainly it leaves neither. -/
theorem shows_blockComment {body rest : List Char} (h : commentSize? (body ++ ['*']) = none)
    (hrest : rest.head? ≠ some '*') (skipping : Bool) : ∃ inside' skipping',
      shows true skipping (body ++ '*' :: '/' :: rest) = shows inside' skipping' rest ∧
      (inside' ∨ skipping' = false) ∧
      (EndsPlainly skipping body → inside' = false ∧ skipping' = false) := by
  induction body generalizing skipping with
  | nil =>
    cases skipping with
    | true =>
      -- the end of the comment is taken out with the rest of the line
      refine ⟨true, true, ?_, .inl rfl, ?_⟩
      · rw [nil_append, shows_skip _ _ (by decide), shows_skip _ _ (by decide)]
      · intro hplain
        exact absurd (hplain.unskipped rfl) not_mem_nil
    | false => exact ⟨false, false, shows_close true rest hrest, .inr rfl, fun _ => ⟨rfl, rfl⟩⟩
  | cons c body ih =>
    rw [cons_append, commentSize?_cons_eq_none] at h
    have hhead : ∀ cs, (cs ++ '*' :: '/' :: rest).head? = (cs ++ ['*']).head? := by
      intro cs
      cases cs <;> rfl
    by_cases hshared : c = '/' ∧ body = []
    · -- the end shares its slash with an opening, and is none
      obtain ⟨rfl, rfl⟩ := hshared
      refine ⟨true, skipping, ?_, .inl rfl, fun hplain => absurd rfl hplain.notOpening⟩
      cases skipping with
      | true =>
        rw [cons_append, nil_append, shows_skip _ _ (by decide), shows_skip _ _ (by decide),
          shows_skip _ _ (by decide)]
      | false =>
        rw [cons_append, nil_append, shows_open,
          shows_bare true rest (by decide) (by simp) ⟨fun _ => hrest, by simp⟩]
        rfl
    · obtain ⟨inside', skipping', hshows, hinv, hplain⟩ :=
        ih h.2 (skips skipping c (body ++ '*' :: '/' :: rest).head?)
      refine ⟨inside', skipping', ?_, hinv, fun hends => hplain (hends.tail _)⟩
      rw [cons_append, shows_inside, hshows]
      · rw [hhead]
        exact h.1
      · rintro ds rfl heq hslash
        cases body with
        | nil => exact hshared ⟨rfl, rfl⟩
        | cons d body =>
          obtain ⟨rfl, rfl⟩ : d = '*' ∧ body ++ '*' :: '/' :: rest = ds := by simpa using heq
          rw [hhead] at hslash
          exact (commentSize?_cons_eq_none.mp h.2).1 ⟨rfl, hslash⟩

end AppAtlas.Sql.Script
