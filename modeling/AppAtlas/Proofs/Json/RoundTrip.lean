import AppAtlas.Json.Reader
import AppAtlas.Proofs.Numerals

/-!
# Written values are read back

A value without doubles is read back from its text.  The reader takes a value off the front of a
text, so the statements are about a written value with something behind it that cannot belong to it:
nothing, a comma or a closing bracket (`Ends`).

Strings come first.  One character, however it is written, is taken in one step
(`readString_escapedChar`), and a string in as many steps as it has characters.  Then numbers, whose
digits are those of `Text.fixedDigits`.  Arrays and objects are read with fuel, and the length of
the text is enough of it (`readItems_renderItems`, `readFields_renderFields`).

* `Value.Whole`: the values without doubles whose numbers fit in 64 bits.
* `parse_render`: they are read back.
-/

namespace AppAtlas.Json

open List

variable {rest : List Char} {n fuel : Nat} {c : Char} {v : Value}

open Text

/-! ### Strings -/

theorem readUnit_fixedDigits (h : n < 16 ^ 4) (rest : List Char) :
    readUnit (fixedDigits 16 4 n ++ rest) = some (n, rest) := by
  obtain ⟨a, r, ha, hr, rfl, heq⟩ := exists_fixedDigits_succ (by decide) h
  obtain ⟨b, q, hb, hq, rfl, heq'⟩ := exists_fixedDigits_succ (by decide) hr
  obtain ⟨c, p, hc, hp, rfl, heq''⟩ := exists_fixedDigits_succ (by decide) hq
  obtain ⟨d, o, hd, ho, rfl, heq'''⟩ := exists_fixedDigits_succ (by decide) hp
  have ho : o = 0 := by simpa using ho
  rw [heq, heq', heq'', heq''']
  simp only [fixedDigits, cons_append, nil_append, readUnit,
    digitIn?_digitChar (le_refl 16) ha, digitIn?_digitChar (le_refl 16) hb,
    digitIn?_digitChar (le_refl 16) hc, digitIn?_digitChar (le_refl 16) hd, Option.bind_eq_bind,
    Option.bind_some, Option.some.injEq, Prod.mk.injEq, and_true]
  omega

theorem readEscape_code (h : c.toNat < 0x2030) (rest : List Char) :
    readEscape ('u' :: (fixedDigits 16 4 c.toNat ++ rest)) = some (c, rest) := by
  have hunit := readUnit_fixedDigits (show c.toNat < 16 ^ 4 by omega) rest
  have hchar : charOf? c.toNat = some c := by
    rw [charOf?, if_pos (show c.toNat.isValidChar from c.valid), Char.ofNat_toNat]
  show readCodeEscape (fixedDigits 16 4 c.toNat ++ rest) = some (c, rest)
  rw [readCodeEscape, hunit]
  simp only [Option.bind_eq_bind, Option.bind_some]
  rw [if_neg (by omega), hchar, Option.bind_some]

/-- **A written character is taken in one step.** -/
theorem readString_escapedChar (fuel : Nat) (done : List Char) (c : Char) (rest : List Char) :
    readString (fuel + 1) done (escapedChar c ++ rest) = readString fuel (c :: done) rest := by
  rw [escapedChar]
  split
  · next hc =>
    subst hc
    rfl
  · next hquote =>
    split
    · next hc =>
      subst hc
      rfl
    · next hslash =>
      split
      · next hcode =>
        have hsmall : c.toNat < 0x2030 := by omega
        have hdigits := replicate_append_toDigits (show 1 < 16 by decide)
          (show c.toNat < 16 ^ (3 + 1) by omega)
        dsimp only
        rw [hexDigits, append_assoc _ _ (Nat.toDigits 16 c.toNat), hdigits]
        show (readEscape ('u' :: (fixedDigits 16 4 c.toNat ++ rest))).bind _ = _
        rw [readEscape_code hsmall]
        rfl
      · next hcode =>
        show readString (fuel + 1) done (c :: rest) = _
        rw [readString]
        · rw [if_neg (by omega)]
        · exact hquote
        · exact hslash

/-- **A written string is read back**, with fuel for each of its characters. -/
theorem readString_flatMap (cs done rest : List Char) (h : cs.length < fuel) :
    readString fuel done (cs.flatMap escapedChar ++ '"' :: rest) =
      some (String.ofList (done.reverse ++ cs), rest) := by
  induction cs generalizing fuel done with
  | nil =>
    obtain ⟨fuel, rfl⟩ := Nat.exists_eq_succ_of_ne_zero (Nat.ne_zero_of_lt h)
    rw [flatMap_nil, nil_append, append_nil]
    rfl
  | cons c cs ih =>
    obtain ⟨fuel, rfl⟩ := Nat.exists_eq_succ_of_ne_zero (Nat.ne_zero_of_lt h)
    rw [flatMap_cons, append_assoc, readString_escapedChar,
      ih (c :: done) (Nat.lt_of_succ_lt_succ h)]
    simp

theorem length_le_flatMap_escapedChar (cs : List Char) :
    cs.length ≤ (cs.flatMap escapedChar).length := by
  induction cs with
  | nil => exact Nat.le_refl 0
  | cons c cs ih =>
    have hone : 1 ≤ (escapedChar c).length := by
      rw [escapedChar]
      split
      · decide
      · split
        · decide
        · split <;> simp
    rw [flatMap_cons, length_append, length_cons]
    omega

theorem toList_renderString (s : String) :
    (renderString s).toList = '"' :: (s.toList.flatMap escapedChar ++ ['"']) := by
  rw [renderString, String.toList_ofList, cons_append]

/-- A string behind its opening quote, with the fuel that the reader gives it. -/
theorem readString_renderString (s : String) (rest : List Char) :
    readString ((s.toList.flatMap escapedChar ++ '"' :: rest).length + 1) []
      (s.toList.flatMap escapedChar ++ '"' :: rest) = some (s, rest) := by
  have hlength : s.toList.length ≤ (s.toList.flatMap escapedChar ++ '"' :: rest).length := by
    have := length_le_flatMap_escapedChar s.toList
    rw [length_append]
    omega
  rw [readString_flatMap s.toList [] rest (Nat.lt_succ_of_le hlength), reverse_nil,
    nil_append, String.ofList_toList]

/-! ### Numbers -/

/-- What cannot belong to a number: nothing, a comma, or a closing bracket. -/
inductive Ends : List Char → Prop where
  | nil : Ends []
  | comma (rest : List Char) : Ends (',' :: rest)
  | bracket (rest : List Char) : Ends (']' :: rest)
  | brace (rest : List Char) : Ends ('\x7d' :: rest)

theorem gatherDigits_fixedDigits {width v : Nat} (h : n < 10 ^ width) (hrest : Ends rest)
    (hmax : 10 ^ width * v + n ≤ wordMax) :
    gatherDigits v (fixedDigits 10 width n ++ rest) = (10 ^ width * v + n, width, 0, rest) := by
  induction width generalizing n v with
  | zero =>
    have hn : n = 0 := by simpa using h
    subst hn
    rw [fixedDigits, nil_append, Nat.pow_zero, Nat.one_mul, Nat.add_zero]
    cases hrest <;> rfl
  | succ width ih =>
    obtain ⟨d, r, hd, hr, rfl, heq⟩ := exists_fixedDigits_succ (by decide) h
    have hvalue : 10 ^ width * (v * 10 + d) + r = 10 ^ (width + 1) * v + (10 ^ width * d + r) := by
      ring
    have hstep : v * 10 + d ≤ wordMax := by
      have : v * 10 + d ≤ 10 ^ width * (v * 10 + d) :=
        Nat.le_mul_of_pos_left _ (Nat.pow_pos (by decide))
      omega
    rw [heq, cons_append, gatherDigits, digitIn?_digitChar (by decide) hd]
    dsimp only
    rw [if_pos hstep, ih hr (by omega), hvalue]

/-- The value of a number that has neither fraction nor exponent. -/
def wholeNumber (negative : Bool) (n : Nat) : Number :=
  if negative then .negative n else .natural n

/-- Whether a number is one that stays whole. -/
def FitsWord (negative : Bool) (n : Nat) : Prop :=
  n ≤ wordMax ∧ (negative = true → n ≠ 0 ∧ n ≤ Nat.pow 2 63)

theorem readFraction_of_ends {negative : Bool} (h : FitsWord negative n) (hrest : Ends rest) :
    readFraction negative n 0 rest = some (wholeNumber negative n, rest) := by
  have hwhole : (if !negative then some (Number.natural n, rest)
      else if n = 0 ∨ Nat.pow 2 63 < n then some (.real (-Float.ofNat n), rest)
      else some (.negative n, rest)) = some (wholeNumber negative n, rest) := by
    cases negative with
    | false => rfl
    | true =>
      obtain ⟨hpos, hle⟩ := h.2 rfl
      have hout : ¬(n = 0 ∨ Nat.pow 2 63 < n) := by omega
      rw [if_neg (by decide), if_neg hout]
      rfl
  rw [← hwhole]
  cases hrest <;> rfl

/-- **The digits of a number are read back.** -/
theorem readUnsigned_toDigits {negative : Bool} (h : FitsWord negative n) (hrest : Ends rest) :
    readUnsigned negative (Nat.toDigits 10 n ++ rest) = some (wholeNumber negative n, rest) := by
  by_cases hzero : n = 0
  · subst hzero
    rw [Nat.toDigits_zero, ← readFraction_of_ends h hrest]
    cases hrest <;> rfl
  · obtain ⟨width, hlt, hle, heq⟩ := exists_toDigits (show 1 < 10 by decide) n
    obtain ⟨d, r, hd, hr, hn, hdigits⟩ := exists_fixedDigits_succ (by decide) hlt
    have hle : 10 ^ width ≤ n := hle hzero
    have hd0 : d ≠ 0 := by
      rintro rfl
      omega
    have hfirst : d.digitChar ≠ '0' := fun h => hd0 (Nat.digitChar_eq_zero.mp h)
    have hgather : gatherDigits d (fixedDigits 10 width r ++ rest) = (n, width, 0, rest) := by
      rw [hn]
      exact gatherDigits_fixedDigits hr hrest (hn ▸ h.1)
    rw [heq, hdigits, cons_append, readUnsigned]
    · rw [digitIn?_digitChar (by decide) hd]
      dsimp only
      rw [hgather]
      exact readFraction_of_ends h hrest
    · exact hfirst

/-! ### Values -/

/-- Values without doubles whose numbers fit in 64 bits. -/
inductive Value.Whole : Value → Prop where
  | null : Whole .null
  | bool (b : Bool) : Whole (.bool b)
  | natural {n : Nat} (h : FitsWord false n) : Whole (.number (.natural n))
  | negative {n : Nat} (h : FitsWord true n) : Whole (.number (.negative n))
  | string (s : String) : Whole (.string s)
  | array {items : List Value} (h : ∀ v ∈ items, Whole v) : Whole (.array items)
  | object {fields : List (String × Value)} (h : ∀ f ∈ fields, Whole f.2) : Whole (.object fields)

/-- A value is read back in front of anything that cannot belong to it, with the length of its text
as fuel. -/
def ReadsBack (v : Value) : Prop :=
  ∀ {fuel : Nat} {rest : List Char}, v.render.toList.length ≤ fuel → Ends rest →
    readValue fuel (v.render.toList ++ rest) = some (v, rest)

/-- A character that a value starts with: neither a blank nor a closing bracket. -/
def Opens (c : Char) : Prop := isGap c = false ∧ c ≠ ']' ∧ c ≠ '\x7d'

theorem Opens.skipGap (h : Opens c) (cs : List Char) : skipGap (c :: cs) = c :: cs := by
  rw [Json.skipGap, dropWhile_cons_of_neg (by simp [h.1])]

theorem opens_of_isDigit (h : c.isDigit) : Opens c := by
  have hne : ∀ e, e.isDigit = false → c ≠ e := by
    rintro e he rfl
    rw [he] at h
    exact Bool.noConfusion h
  refine ⟨?_, hne ']' rfl, hne '\x7d' rfl⟩
  simp [isGap, hne ' ' rfl, hne '\t' rfl, hne '\n' rfl, hne '\r' rfl]

theorem readValue_number {cs : List Char} {n : Number} (hc : c = '-' ∨ c.isDigit)
    (h : readNumber (c :: cs) = some (n, rest)) :
    readValue (fuel + 1) (c :: cs) = some (.number n, rest) := by
  have hopens : Opens c := by
    rcases hc with rfl | hc
    · exact ⟨rfl, by decide, by decide⟩
    · exact opens_of_isDigit hc
  rw [readValue, hopens.skipGap]
  -- none of the other forms starts with a digit or a sign
  split <;> simp_all

theorem toList_render_natural (n : Nat) :
    (Value.number (.natural n)).render.toList = Nat.toDigits 10 n := by
  rw [Value.render, Number.render, Nat.toString_eq_ofList_toDigits, String.toList_ofList]

theorem toList_render_negative (n : Nat) :
    (Value.number (.negative n)).render.toList = '-' :: Nat.toDigits 10 n := by
  rw [Value.render, Number.render, String.toList_append, Nat.toString_eq_ofList_toDigits,
    String.toList_ofList, String.toList_ofList]
  rfl

theorem exists_toDigits_cons (n : Nat) : ∃ c cs, Nat.toDigits 10 n = c :: cs ∧ c.isDigit := by
  obtain ⟨c, cs, hdigits⟩ := exists_cons_of_ne_nil (Nat.toDigits_ne_nil (n := n) (b := 10))
  exact ⟨c, cs, hdigits,
    Nat.isDigit_of_mem_toDigits (by decide) (by decide) (hdigits ▸ mem_cons_self)⟩

theorem readsBack_natural (h : FitsWord false n) : ReadsBack (.number (.natural n)) := by
  intro fuel rest hfuel hrest
  have hread := readUnsigned_toDigits h hrest
  obtain ⟨c, cs, hdigits, hc⟩ := exists_toDigits_cons n
  rw [toList_render_natural, hdigits] at hfuel ⊢
  rw [hdigits, cons_append] at hread
  obtain ⟨fuel, rfl⟩ := Nat.exists_eq_succ_of_ne_zero (Nat.ne_zero_of_lt hfuel)
  refine readValue_number (.inr hc) ?_
  have hsign : ∀ cs', c :: (cs ++ rest) ≠ '-' :: cs' := by
    intro cs' heq
    rw [(cons.inj heq).1] at hc
    exact Bool.noConfusion hc
  rw [append_eq, readNumber]
  · exact hread
  · exact hsign

theorem readsBack_negative (h : FitsWord true n) : ReadsBack (.number (.negative n)) := by
  intro fuel rest hfuel hrest
  rw [toList_render_negative] at hfuel ⊢
  obtain ⟨fuel, rfl⟩ := Nat.exists_eq_succ_of_ne_zero (Nat.ne_zero_of_lt hfuel)
  exact readValue_number (.inl rfl) (readUnsigned_toDigits h hrest)

theorem readsBack_string (s : String) : ReadsBack (.string s) := by
  intro fuel rest hfuel hrest
  rw [Value.render, toList_renderString] at hfuel ⊢
  obtain ⟨fuel, rfl⟩ := Nat.exists_eq_succ_of_ne_zero (Nat.ne_zero_of_lt hfuel)
  rw [cons_append, append_assoc, singleton_append]
  show (readString _ [] _).map _ = _
  rw [readString_renderString]
  rfl

/-! ### Arrays and objects -/

theorem exists_opens (h : v.Whole) : ∃ c cs, v.render.toList = c :: cs ∧ Opens c := by
  cases h with
  | null => exact ⟨'n', ['u', 'l', 'l'], rfl, rfl, by decide, by decide⟩
  | bool b =>
    cases b with
    | false => exact ⟨'f', ['a', 'l', 's', 'e'], rfl, rfl, by decide, by decide⟩
    | true => exact ⟨'t', ['r', 'u', 'e'], rfl, rfl, by decide, by decide⟩
  | @natural n h =>
    obtain ⟨c, cs, hdigits, hc⟩ := exists_toDigits_cons n
    exact ⟨c, cs, (toList_render_natural n).trans hdigits, opens_of_isDigit hc⟩
  | negative h => exact ⟨'-', _, toList_render_negative _, rfl, by decide, by decide⟩
  | string s =>
    rw [Value.render, toList_renderString]
    exact ⟨'"', _, rfl, rfl, by decide, by decide⟩
  | array h =>
    rw [Value.render, String.toList_append, String.toList_append]
    exact ⟨'[', _, rfl, rfl, by decide, by decide⟩
  | object h =>
    rw [Value.render, String.toList_append, String.toList_append]
    exact ⟨'\x7b', _, rfl, rfl, by decide, by decide⟩

def joined (texts : List String) : List Char := (",".intercalate texts).toList

theorem joined_singleton (s : String) : joined [s] = s.toList := by
  rw [joined, String.intercalate_singleton]

theorem joined_cons_cons (s t : String) (texts : List String) :
    joined (s :: t :: texts) = s.toList ++ ',' :: joined (t :: texts) := by
  rw [joined, String.intercalate_cons_cons, String.toList_append, String.toList_append,
    append_assoc]
  rfl

theorem exists_joined_cons (s : String) (texts : List String) :
    ∃ rest, joined (s :: texts) = s.toList ++ rest := by
  cases texts with
  | nil => exact ⟨[], by rw [joined_singleton, append_nil]⟩
  | cons t texts => exact ⟨',' :: joined (t :: texts), joined_cons_cons s t texts⟩

/-- **The items of an array are read back** if each of them is. -/
theorem readItems_renderItems {vs : List Value} (h : ∀ w ∈ v :: vs, ReadsBack w)
    (hfuel : (joined (renderItems (v :: vs))).length < fuel) :
    readItems fuel (joined (renderItems (v :: vs)) ++ ']' :: rest) = some (v :: vs, rest) := by
  induction vs generalizing v fuel with
  | nil =>
    obtain ⟨fuel, rfl⟩ := Nat.exists_eq_succ_of_ne_zero (Nat.ne_zero_of_lt hfuel)
    rw [renderItems, renderItems, joined_singleton] at hfuel ⊢
    rw [readItems, h v mem_cons_self (Nat.le_of_lt_succ hfuel) (.bracket rest)]
    rfl
  | cons w ws ih =>
    obtain ⟨fuel, rfl⟩ := Nat.exists_eq_succ_of_ne_zero (Nat.ne_zero_of_lt hfuel)
    have hsplit : joined (renderItems (v :: w :: ws)) =
        v.render.toList ++ ',' :: joined (renderItems (w :: ws)) := by
      rw [renderItems, renderItems, joined_cons_cons]
    rw [hsplit, length_append, length_cons] at hfuel
    have hfirst := h v mem_cons_self (show v.render.toList.length ≤ fuel by omega)
      (.comma (joined (renderItems (w :: ws)) ++ ']' :: rest))
    have hothers := ih (fun x hx => h x (mem_cons_of_mem v hx))
      (show (joined (renderItems (w :: ws))).length < fuel by omega)
    rw [hsplit, append_assoc, cons_append, readItems, hfirst]
    show (readItems fuel (joined (renderItems (w :: ws)) ++ ']' :: rest)).bind _ = _
    rw [hothers]
    rfl

theorem toList_field (k : String) (v : Value) (rest : List Char) :
    (renderString k ++ ":" ++ v.render).toList ++ rest =
      '"' :: (k.toList.flatMap escapedChar ++ '"' :: ':' :: (v.render.toList ++ rest)) := by
  rw [String.toList_append, String.toList_append, toList_renderString]
  simp

theorem readFields_field {k : String}
    (hv : readValue fuel (v.render.toList ++ rest) = some (v, rest)) :
    readFields (fuel + 1) ((renderString k ++ ":" ++ v.render).toList ++ rest) =
      match skipGap rest with
      | ',' :: rest => (readFields fuel rest).bind fun r => some ((k, v) :: r.1, r.2)
      | '\x7d' :: rest => some ([(k, v)], rest)
      | _ => none := by
  rw [toList_field]
  show (readString _ [] _).bind _ = _
  rw [readString_renderString, Option.bind_some]
  show (readValue fuel (v.render.toList ++ rest)).bind _ = _
  rw [hv]
  rfl

/-- **The fields of an object are read back** if their values are. -/
theorem readFields_renderFields {f : String × Value} {fs : List (String × Value)}
    (h : ∀ g ∈ f :: fs, ReadsBack g.2) (hfuel : (joined (renderFields (f :: fs))).length < fuel) :
    readFields fuel (joined (renderFields (f :: fs)) ++ '\x7d' :: rest) = some (f :: fs, rest) := by
  induction fs generalizing f fuel with
  | nil =>
    obtain ⟨fuel, rfl⟩ := Nat.exists_eq_succ_of_ne_zero (Nat.ne_zero_of_lt hfuel)
    rw [renderFields, renderFields, joined_singleton] at hfuel ⊢
    rw [String.toList_append, length_append] at hfuel
    have hvalue := h f mem_cons_self (show f.2.render.toList.length ≤ fuel by omega)
      (.brace rest)
    rw [readFields_field hvalue]
    rfl
  | cons g gs ih =>
    obtain ⟨fuel, rfl⟩ := Nat.exists_eq_succ_of_ne_zero (Nat.ne_zero_of_lt hfuel)
    have hsplit : joined (renderFields (f :: g :: gs)) =
        (renderString f.1 ++ ":" ++ f.2.render).toList ++
          ',' :: joined (renderFields (g :: gs)) := by
      rw [renderFields, renderFields, joined_cons_cons]
    rw [hsplit, length_append, length_cons, String.toList_append,
      length_append] at hfuel
    have hvalue := h f mem_cons_self (show f.2.render.toList.length ≤ fuel by omega)
      (.comma (joined (renderFields (g :: gs)) ++ '\x7d' :: rest))
    have hothers := ih (fun x hx => h x (mem_cons_of_mem f hx))
      (show (joined (renderFields (g :: gs))).length < fuel by omega)
    rw [hsplit, append_assoc, cons_append, readFields_field hvalue]
    show (readFields fuel (joined (renderFields (g :: gs)) ++ '\x7d' :: rest)).bind _ = _
    rw [hothers]
    rfl

theorem toList_render_array (items : List Value) :
    (Value.array items).render.toList = '[' :: (joined (renderItems items) ++ [']']) := by
  rw [Value.render, String.toList_append, String.toList_append]
  rfl

theorem toList_render_object (fields : List (String × Value)) :
    (Value.object fields).render.toList = '\x7b' :: (joined (renderFields fields) ++ ['\x7d']) := by
  rw [Value.render, String.toList_append, String.toList_append]
  rfl

theorem readValue_array {cs : List Char} (h : Opens c) : readValue (fuel + 1) ('[' :: c :: cs) =
      (readItems fuel (c :: cs)).map fun r => (.array r.1, r.2) := by
  have hbracket : skipGap ('[' :: c :: cs) = '[' :: c :: cs := rfl
  rw [readValue, hbracket]
  split
  case h_5 rest heq =>
    obtain rfl := (List.cons.inj heq).2
    rw [h.skipGap]
    split
    · next heq => exact absurd (List.cons.inj heq).1 h.2.1
    · rfl
  -- no other form of value starts with a bracket
  all_goals simp_all

theorem readsBack_array {items : List Value} (hwhole : ∀ v ∈ items, v.Whole)
    (h : ∀ v ∈ items, ReadsBack v) : ReadsBack (.array items) := by
  intro fuel rest hfuel hrest
  rw [toList_render_array] at hfuel ⊢
  obtain ⟨fuel, rfl⟩ := Nat.exists_eq_succ_of_ne_zero (Nat.ne_zero_of_lt hfuel)
  rw [cons_append, append_assoc, singleton_append]
  cases items with
  | nil => rfl
  | cons v vs =>
    have hitems : readItems fuel (joined (renderItems (v :: vs)) ++ ']' :: rest) =
        some (v :: vs, rest) := by
      refine readItems_renderItems h ?_
      rw [length_cons, length_append, length_singleton] at hfuel
      omega
    obtain ⟨c, cs, hv, hopens⟩ := exists_opens (hwhole v mem_cons_self)
    obtain ⟨others, hothers⟩ := exists_joined_cons v.render (renderItems vs)
    rw [renderItems, hothers, hv, cons_append, cons_append] at hitems ⊢
    rw [readValue_array hopens, hitems]
    rfl

theorem readsBack_object {fields : List (String × Value)} (h : ∀ f ∈ fields, ReadsBack f.2) :
    ReadsBack (.object fields) := by
  intro fuel rest hfuel hrest
  rw [toList_render_object] at hfuel ⊢
  obtain ⟨fuel, rfl⟩ := Nat.exists_eq_succ_of_ne_zero (Nat.ne_zero_of_lt hfuel)
  rw [cons_append, append_assoc, singleton_append]
  cases fields with
  | nil => rfl
  | cons f fs =>
    have hfields : readFields fuel (joined (renderFields (f :: fs)) ++ '\x7d' :: rest) =
        some (f :: fs, rest) := by
      refine readFields_renderFields h ?_
      rw [length_cons, length_append, length_singleton] at hfuel
      omega
    obtain ⟨others, hothers⟩ := exists_joined_cons (renderString f.1 ++ ":" ++ f.2.render)
      (renderFields fs)
    rw [renderFields, hothers, append_assoc, toList_field] at hfields ⊢
    show (readFields fuel ('"' :: _)).map _ = _
    rw [hfields]
    rfl

/-- **Whole values are read back** in front of anything that cannot belong to them. -/
theorem Value.Whole.readsBack (h : v.Whole) : ReadsBack v := by
  induction h with
  | null =>
    intro fuel rest hfuel hrest
    obtain ⟨fuel, rfl⟩ := Nat.exists_eq_succ_of_ne_zero (Nat.ne_zero_of_lt hfuel)
    rfl
  | bool b =>
    intro fuel rest hfuel hrest
    cases b <;>
    · obtain ⟨fuel, rfl⟩ := Nat.exists_eq_succ_of_ne_zero (Nat.ne_zero_of_lt hfuel)
      rfl
  | natural h => exact readsBack_natural h
  | negative h => exact readsBack_negative h
  | string s => exact readsBack_string s
  | array hwhole ih => exact readsBack_array hwhole ih
  | object hwhole ih => exact readsBack_object ih

/-- **A written value is read back.** -/
theorem parse_render (h : v.Whole) : parse v.render = some v := by
  have hread := h.readsBack (show v.render.toList.length ≤ 2 * v.render.toList.length + 2 by omega)
    .nil
  rw [append_nil] at hread
  rw [parse, hread]
  rfl

end AppAtlas.Json
