import AppAtlas.Sql.Usage

/-!
# Parentheses among tokens

Tokens that close as many parentheses as stand open before them, and each one they open, so that a
reader who counts is where it was before them.

* `Closes`, `Closes.append`, `Closes.inside`: such tokens, one behind the other and in parentheses.
* `Closes.length_namesInside`: a list of names is left where its parenthesis is closed.
-/

namespace AppAtlas.Sql

/-- **Tokens that close `depth` parentheses** and each one they open; those outside of all
parentheses satisfy `p`. -/
inductive Closes (p : Token → Prop) : Nat → List Token → Prop
  | nil : Closes p 0 []
  | opening {depth : Nat} {t : Token} {ts : List Token} (ht : t.isPunct '(' = true)
    (h : Closes p (depth + 1) ts) : Closes p depth (t :: ts)
  | closing {depth : Nat} {t : Token} {ts : List Token} (ht : t.isPunct ')' = true)
    (h : Closes p depth ts) : Closes p (depth + 1) (t :: ts)
  | other {depth : Nat} {t : Token} {ts : List Token} (hopen : ¬t.isPunct '(' = true)
    (hclose : ¬t.isPunct ')' = true) (hp : depth = 0 → p t) (h : Closes p depth ts) :
    Closes p depth (t :: ts)

theorem not_isPunct_of_isPunct {t : Token} {a b : Char} (h : t.isPunct a) (hab : a ≠ b) :
    ¬t.isPunct b := by
  rw [Token.isPunct, beq_iff_eq] at h ⊢
  rw [h]
  simpa using hab

theorem not_isPunct_of_isName {t : Token} (h : t.isName) (mark : Char) : ¬t.isPunct mark := by
  rw [Token.isPunct, beq_iff_eq]
  intro hsort
  simp [Token.isName, hsort] at h

theorem closes_of_parenthesisFault {depth line : Nat} {ts : List Token}
    (h : parenthesisFault depth line ts = none) : Closes (fun _ => True) depth ts := by
  induction ts generalizing depth line with
  | nil =>
    obtain rfl : depth = 0 := by simpa [parenthesisFault] using h
    exact .nil
  | cons t ts ih =>
    rw [parenthesisFault.eq_def] at h
    dsimp only at h
    split at h
    · next hopen => exact .opening hopen (ih h)
    · next hopen =>
      split at h
      · next hclose =>
        cases depth with
        | zero => cases h
        | succ depth => exact .closing hclose (ih h)
      · next hclose => exact .other hopen hclose (fun _ => trivial) (ih h)

namespace Closes

variable {p q : Token → Prop} {depth : Nat} {ts us : List Token}

theorem mono (h : Closes p depth ts) (hpq : ∀ t, p t → q t) : Closes q depth ts := by
  induction h with
  | nil => exact .nil
  | opening ht _ ih => exact .opening ht ih
  | closing ht _ ih => exact .closing ht ih
  | other hopen hclose hp _ ih => exact .other hopen hclose (fun hdepth => hpq _ (hp hdepth)) ih

theorem append (h : Closes p depth ts) (hus : Closes p 0 us) : Closes p depth (ts ++ us) := by
  induction h with
  | nil => exact hus
  | opening ht _ ih => exact .opening ht ih
  | closing ht _ ih => exact .closing ht ih
  | other hopen hclose hp _ ih => exact .other hopen hclose hp ih

/-- What stands inside of a parenthesis need not satisfy anything. -/
theorem inside (h : Closes p depth ts) {closing : Token} (hclosing : closing.isPunct ')')
    (hus : Closes q 0 us) : Closes q (depth + 1) (ts ++ closing :: us) := by
  induction h with
  | nil => exact .closing hclosing hus
  | opening ht _ ih => exact .opening ht ih
  | closing ht _ ih => exact .closing ht ih
  | other hopen hclose _ _ ih => exact .other hopen hclose (by omega) ih

theorem of_forall (h : ∀ t ∈ ts, ¬t.isPunct '(' ∧ ¬t.isPunct ')' ∧ p t) : Closes p 0 ts := by
  induction ts with
  | nil => exact .nil
  | cons t ts ih =>
    obtain ⟨⟨hopen, hclose, hp⟩, hts⟩ := List.forall_mem_cons.mp h
    exact .other hopen hclose (fun _ => hp) (ih hts)

theorem parenthesisFault_eq_none (h : Closes p depth ts) (line : Nat) :
    parenthesisFault depth line ts = none := by
  induction h generalizing line with
  | nil => rfl
  | opening ht _ ih =>
    rw [parenthesisFault.eq_def]
    simp only [ht, ih, if_true]
  | closing ht _ ih =>
    rw [parenthesisFault.eq_def]
    simp only [not_isPunct_of_isPunct ht (show ')' ≠ '(' by decide), ht, ih, if_true]
    rfl
  | other hopen hclose _ _ ih =>
    rw [parenthesisFault.eq_def]
    simp only [hopen, hclose, ih]
    rfl

theorem length_namesInside (h : Closes p depth ts) (rest : List Token) :
    (namesInside (depth + 1) (ts ++ rest)).2 = ts.length + (namesInside 1 rest).2 := by
  induction h with
  | nil => simp
  | @opening depth t ts ht _ ih =>
    rw [List.cons_append, namesInside, if_pos ht]
    simp only [ih, List.length_cons]
    omega
  | @closing depth t ts ht _ ih =>
    rw [List.cons_append, namesInside, if_neg (not_isPunct_of_isPunct ht (by decide)), if_pos ht,
      if_neg (by omega)]
    simp only [Nat.add_sub_cancel, ih, List.length_cons]
    omega
  | @other depth t ts hopen hclose _ _ ih =>
    rw [List.cons_append, namesInside, if_neg hopen, if_neg hclose]
    dsimp only
    split <;> simp only [ih, List.length_cons] <;> omega

end Closes

end AppAtlas.Sql
