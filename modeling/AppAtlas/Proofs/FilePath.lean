import AppAtlas.Identity

/-!
# Normalised paths

A normalised path has no backslashes, does not begin with `./` and has no two slashes in a row.
Each of the three steps of `FilePath.normalize` does nothing to a text that has been through all of
them, so normalising once is enough.

A path is the same in any spelling of its separators, with one exception.  The leading `./` are
taken off before slashes are made single, so of `.//a` a slash is left that `./a` does not have.

* `collapse_replicate_eq_iff`: several slashes in place of one.
* `separators_exchangeable_iff`: which separators can be exchanged for runs of separators.
-/

namespace AppAtlas.FilePath

open List

variable {cs rest : List Char}

/-! ### No backslashes -/

theorem unify_eq_self (h : '\\' ∉ cs) : unify cs = cs := by
  refine (map_congr_left fun c hc => if_neg ?_).trans (map_id cs)
  rintro rfl
  exact h hc

theorem backslash_not_mem_unify (cs : List Char) : '\\' ∉ unify cs := by
  intro h
  obtain ⟨c, -, hc⟩ := mem_map.mp h
  split at hc
  · cases hc
  · next hne => exact hne hc

theorem dropHere_sublist (cs : List Char) : (dropHere cs).Sublist cs := by
  fun_induction dropHere cs with
  | case1 rest ih => exact (ih.cons '/').cons '.'
  | case2 cs hne => exact Sublist.refl cs

theorem collapse_sublist (after : Bool) (cs : List Char) : (collapse after cs).Sublist cs := by
  induction cs generalizing after with
  | nil => exact Sublist.refl []
  | cons c cs ih =>
    rw [collapse]
    split
    · split
      · exact (ih true).cons c
      · exact (ih true).cons_cons c
    · exact (ih false).cons_cons c

/-! ### No leading `./` -/

theorem dropHere_ne (cs rest : List Char) : dropHere cs ≠ '.' :: '/' :: rest := by
  fun_induction dropHere cs with
  | case1 cs ih => exact ih
  | case2 cs hne => exact hne rest

theorem dropHere_eq_self (h : ∀ rest, cs ≠ '.' :: '/' :: rest) : dropHere cs = cs := by
  fun_cases dropHere cs with
  | case1 rest => exact absurd rfl (h rest)
  | case2 hne => rfl

theorem collapse_ne (h : ∀ rest, cs ≠ '.' :: '/' :: rest) (rest : List Char) :
    collapse false cs ≠ '.' :: '/' :: rest := by
  intro heq
  match cs with
  | [] => exact absurd heq (by simp [collapse])
  | [c] =>
    by_cases hc : c = '/' <;> simp [collapse, hc] at heq
  | c :: d :: cs =>
    by_cases hc : c = '/'
    · simp [collapse, hc] at heq
    · by_cases hd : d = '/'
      · simp only [collapse, hc, hd, if_false, if_true, cons.injEq] at heq
        exact h cs (by rw [heq.1, hd])
      · simp [collapse, hc, hd] at heq

/-! ### No two slashes in a row -/

theorem collapse_collapse (after : Bool) (cs : List Char) :
    collapse after (collapse after cs) = collapse after cs := by
  induction cs generalizing after with
  | nil => rfl
  | cons c cs ih =>
    by_cases hc : c = '/'
    · cases after <;> simp [collapse, hc, ih]
    · simp [collapse, hc, ih]

/-! ### All together -/

theorem normalizeChars_normalizeChars (cs : List Char) :
    normalizeChars (normalizeChars cs) = normalizeChars cs := by
  have hunified : '\\' ∉ normalizeChars cs := fun h =>
    backslash_not_mem_unify cs
      (((collapse_sublist false _).trans (dropHere_sublist _)).subset h)
  have hhere : ∀ rest, normalizeChars cs ≠ '.' :: '/' :: rest :=
    collapse_ne (dropHere_ne _)
  calc normalizeChars (normalizeChars cs)
      = collapse false (normalizeChars cs) := by
        rw [normalizeChars, unify_eq_self hunified, dropHere_eq_self hhere]
    _ = normalizeChars cs := collapse_collapse false _

/-- **A normalised path is its own normal form.** -/
theorem normalize_normalize (path : String) : normalize (normalize path) = normalize path := by
  rw [normalize, normalize, Text.onString, Text.toList_onString, normalizeChars_normalizeChars]
  rfl

/-! ### Separators -/

def isSeparator (c : Char) : Bool :=
  c == '/' || c == '\\'

theorem unify_eq_replicate {run : List Char} (h : run.all isSeparator) :
    unify run = replicate run.length '/' := by
  rw [eq_replicate_iff]
  refine ⟨length_map .., fun c hc => ?_⟩
  obtain ⟨d, hd, rfl⟩ := mem_map.mp hc
  have hsep := all_eq_true.mp h d hd
  simp only [isSeparator, Bool.or_eq_true, beq_iff_eq] at hsep
  rcases hsep with rfl | rfl <;> rfl

theorem head?_unify (cs : List Char) :
    ((unify cs).head? == some '/') = cs.head?.any isSeparator := by
  cases cs with
  | nil => rfl
  | cons c cs => by_cases hc : c = '\\' <;> simp [unify, isSeparator, hc]

/-- The texts `.`, `./.`, `././.` and so on, which a slash behind them makes leading `./`. -/
def isHere : List Char → Bool
  | ['.'] => true
  | '.' :: '/' :: rest => isHere rest
  | _ => false

theorem dropHere_of_isHere (h : isHere cs) (rest : List Char) :
    dropHere (cs ++ '/' :: rest) = dropHere rest := by
  fun_induction isHere cs with
  | case1 => rfl
  | case2 cs ih => exact ih h
  | case3 => exact Bool.noConfusion h

theorem exists_dropHere (h : isHere cs = false) :
    ∃ front, ∀ rest, dropHere (cs ++ '/' :: rest) = front ++ '/' :: rest := by
  fun_induction isHere cs with
  | case1 => exact Bool.noConfusion h
  | case2 cs ih => exact ih h
  | case3 cs hdot hhere =>
    refine ⟨cs, fun rest => dropHere_eq_self fun rest' heq => ?_⟩
    match cs with
    | [] => exact absurd (cons.inj heq).1 (by decide)
    | [c] => exact hdot (by rw [(cons.inj heq).1])
    | c :: d :: cs =>
      obtain ⟨rfl, hd⟩ := cons.inj heq
      obtain ⟨rfl, -⟩ := cons.inj hd
      exact hhere cs rfl

theorem collapse_replicate (n : Nat) (rest : List Char) :
    collapse true (replicate n '/' ++ rest) = collapse true rest := by
  induction n with
  | zero => rfl
  | succ n ih => exact ih

theorem collapse_append_slash (after : Bool) (front : List Char) {a b : List Char}
    (h : collapse true a = collapse true b) :
    collapse after (front ++ '/' :: a) = collapse after (front ++ '/' :: b) := by
  induction front generalizing after with
  | nil => simp [collapse, h]
  | cons c front ih => simp [collapse, ih]

theorem length_collapse_le (cs : List Char) :
    (collapse false cs).length ≤ (collapse true cs).length + 1 := by
  cases cs with
  | nil => exact Nat.zero_le _
  | cons c cs => by_cases hc : c = '/' <;> simp [collapse, hc]

theorem length_collapse_dropHere_le (cs : List Char) :
    (collapse false (dropHere cs)).length ≤ (collapse false cs).length := by
  fun_induction dropHere cs with
  | case1 rest ih =>
    have hrest : collapse false ('.' :: '/' :: rest) = '.' :: '/' :: collapse true rest := rfl
    have := length_collapse_le rest
    rw [hrest, length_cons, length_cons]
    omega
  | case2 cs hne => exact Nat.le_refl _

theorem collapse_slash_eq_iff (cs : List Char) :
    '/' :: collapse true cs = collapse false (dropHere cs) ↔ cs.head? = some '/' := by
  constructor
  · intro h
    refine Decidable.byContradiction fun hhead => ?_
    have hsame : collapse true cs = collapse false cs := by
      cases cs with
      | nil => rfl
      | cons c cs =>
        have hc : c ≠ '/' := fun hc => hhead (by rw [hc]; rfl)
        simp [collapse, hc]
    have hle := length_collapse_dropHere_le cs
    rw [← h, hsame, length_cons] at hle
    omega
  · intro h
    obtain ⟨rest, rfl⟩ := head?_eq_some_iff.mp h
    rfl

/-- **One slash in place of several.** -/
theorem collapse_replicate_eq_iff (before after : List Char) (n : Nat) :
    collapse false (dropHere (before ++ (replicate (n + 1) '/' ++ after))) =
        collapse false (dropHere (before ++ '/' :: after)) ↔
      (isHere before && decide (0 < n) && !(after.head? == some '/')) = false := by
  rw [replicate_succ, cons_append]
  cases hbefore : isHere before with
  | true =>
    rw [dropHere_of_isHere hbefore, dropHere_of_isHere hbefore]
    cases n with
    | zero => simp
    | succ n =>
      have hrun : collapse false (dropHere (replicate (n + 1) '/' ++ after)) =
          '/' :: collapse true after := congrArg ('/' :: ·) (collapse_replicate n after)
      rw [hrun, collapse_slash_eq_iff]
      simp
  | false =>
    obtain ⟨front, hfront⟩ := exists_dropHere hbefore
    rw [hfront, hfront, collapse_append_slash false front (collapse_replicate n after)]
    simp

/-- Whether several separators end the `./` that a path begins with. -/
def endsHere (before run after : List Char) : Bool :=
  isHere (unify before) && decide (1 < run.length) && !after.head?.any isSeparator

theorem normalizeChars_run_eq_iff (before after : List Char) {run : List Char} {c : Char}
    (hc : isSeparator c) (hrun : run.all isSeparator) (hne : run ≠ []) :
    normalizeChars (before ++ run ++ after) = normalizeChars (before ++ [c] ++ after) ↔
      endsHere before run after = false := by
  have hunify (a b : List Char) : unify (a ++ b) = unify a ++ unify b := map_append
  have hone : unify [c] = ['/'] := unify_eq_replicate (by simpa using hc)
  obtain ⟨n, hn⟩ := Nat.exists_eq_succ_of_ne_zero (mt length_eq_zero_iff.mp hne)
  rw [normalizeChars, normalizeChars, hunify, hunify, hunify, hunify, hone, unify_eq_replicate hrun,
    append_assoc, append_assoc, singleton_append, hn, collapse_replicate_eq_iff,
    head?_unify, endsHere, hn]
  simp

/-- **Separators can be written in any way**, except that each of the leading `./` has one.  A
single separator can be exchanged for any run of separators: the normalised path stays the same,
unless several separators end the leading `./`, and then it does not.  With the path stays the key
of the file, whatever the file holds.  Normalising once is enough. -/
theorem separators_exchangeable_iff (before run after : String) {c : Char}
    (hc : isSeparator c = true) (hrun : run.toList.all isSeparator = true) (hne : run ≠ "") :
    (normalize (before ++ run ++ after) = normalize (before ++ String.singleton c ++ after) ↔
      endsHere before.toList run.toList after.toList = false) ∧
    (endsHere before.toList run.toList after.toList = false → ∀ content : String,
      FileKey.of (before ++ run ++ after) content =
        FileKey.of (before ++ String.singleton c ++ after) content) ∧
    ∀ path : String, normalize (normalize path) = normalize path := by
  have hiff : normalize (before ++ run ++ after) = normalize (before ++ String.singleton c ++ after) ↔
      endsHere before.toList run.toList after.toList = false := by
    rw [← normalizeChars_run_eq_iff _ _ hc hrun (by simpa using hne), normalize, normalize,
      Text.onString, Text.onString, String.ofList_inj]
    simp only [String.toList_append, String.toList_singleton]
  refine ⟨hiff, fun h content => ?_, normalize_normalize⟩
  rw [FileKey.of, FileKey.of, FileKey.bytes, FileKey.bytes, hiff.mpr h]

theorem source_path_spelled_freely :
    endsHere ".\\src".toList "\\\\//".toList "A.java".toList = false ∧
      normalize (".\\src" ++ "\\\\//" ++ "A.java") =
        normalize (".\\src" ++ String.singleton '/' ++ "A.java") ∧
      FileKey.of (".\\src" ++ "\\\\//" ++ "A.java") "class A" =
        FileKey.of (".\\src" ++ String.singleton '/' ++ "A.java") "class A" :=
  have h := separators_exchangeable_iff ".\\src" "\\\\//" "A.java" (c := '/') (by decide) (by decide)
    (by decide)
  ⟨by decide, h.1.mpr (by decide), h.2.1 (by decide) "class A"⟩

/-- A second separator behind the dot makes another path. -/
theorem doubled_separator_behind_dot :
    normalize ("." ++ "//" ++ "a") ≠ normalize ("." ++ String.singleton '/' ++ "a") ∧
      FileKey.of ("." ++ "//" ++ "a") "" ≠ FileKey.of ("." ++ String.singleton '/' ++ "a") "" := by
  decide +kernel

end AppAtlas.FilePath
