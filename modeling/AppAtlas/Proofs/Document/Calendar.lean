import AppAtlas.Document.Timestamp
import AppAtlas.Proofs.Numerals
import Mathlib.Data.List.TakeWhile

/-!
# Dates and times

A moment is written with its date and time of day, and read back from that.  Two things have to be
right: the calendar, and the text.

The calendar repeats after 146097 days.  Such an *era* starts on a first of March, so that a leap
day is the last day of its year, of its block of four years, of its century and of the era.
`EraDay` is the place of a day in its era.  From it come the year, the month and the day
(`date_spec`), and the day number again.

The text has a fixed width in every field but the fraction of the second, which is written with
none, three, six or nine digits.

* `date_spec`: every day number has a date, of that day number.
* `parse?_numericText`: exactly the moments of the years 0 to 9999 are read back from their texts.
-/

namespace AppAtlas.Timestamp

/-! ### The calendar -/

/-- The place of a day in its era: century, block of four years, year of the block, and day of the
year.  A year has a day 365 only if it ends in a leap day. -/
structure EraDay (e g q t u : Int) : Prop where
  sum : e = 36524 * g + 1461 * q + 365 * t + u
  century : 0 ≤ g ∧ g ≤ 3
  block : 0 ≤ q ∧ q ≤ 24
  year : 0 ≤ t ∧ t ≤ 3
  day : 0 ≤ u ∧ u ≤ 365
  leap : u = 365 → t = 3 ∧ (q = 24 → g = 3)

theorem exists_eraDay {e : Int} (h0 : 0 ≤ e) (h : e < 146097) : ∃ g q t u, EraDay e g q t u := by
  obtain ⟨g, hg⟩ : ∃ g, g = min 3 (e / 36524) := ⟨_, rfl⟩
  obtain ⟨q, hq⟩ : ∃ q, q = (e - 36524 * g) / 1461 := ⟨_, rfl⟩
  obtain ⟨t, ht⟩ : ∃ t, t = min 3 ((e - 36524 * g - 1461 * q) / 365) := ⟨_, rfl⟩
  have hcentury : 0 ≤ g ∧ g ≤ 3 := by omega
  have hrest : 0 ≤ e - 36524 * g ∧ e - 36524 * g ≤ 36524 ∧ (e - 36524 * g = 36524 → g = 3) := by
    omega
  have hblock : 0 ≤ q ∧ q ≤ 24 := by omega
  refine ⟨g, q, t, e - 36524 * g - 1461 * q - 365 * t, by omega, hcentury, hblock, ?_, ?_, ?_⟩
  · omega
  · omega
  · omega

namespace EraDay

variable {e g q t u : Int}

theorem yearOfEra (h : EraDay e g q t u) :
    (e - e / 1460 + e / 36524 - e / 146096) / 365 = 100 * g + 4 * q + t := by
  obtain ⟨hsum, hg, hq, ht, hu, hleap⟩ := h
  have hcenturies : e / 36524 - e / 146096 = g := by
    by_cases hlast : e = 146096
    · have hg3 : g = 3 := by omega
      rw [hlast, hg3]
      rfl
    · have hwithin : 0 ≤ e - 36524 * g ∧ e - 36524 * g ≤ 36523 := by omega
      have hcentury : e / 36524 = g := by omega
      have hera : e / 146096 = 0 := by omega
      omega
  -- the days are counted in blocks of 1460, so that a block more may be over before the last year
  by_cases hlate : 24 * g + q + 365 * t + u < 1460
  · have hblocks : e / 1460 = 25 * g + q := by omega
    omega
  · have hblocks : e / 1460 = 25 * g + q + 1 := by omega
    omega

theorem dayOfYear (h : EraDay e g q t u) :
    e - (365 * (100 * g + 4 * q + t) + (100 * g + 4 * q + t) / 4
      - (100 * g + 4 * q + t) / 100) = u := by
  obtain ⟨hsum, hg, hq, ht, hu, hleap⟩ := h
  omega

end EraDay

/-- The month that comes so many months after March. -/
def monthAfterMarch (k : Int) : Int := if k < 10 then k + 3 else k - 9

/-- The year of a month that comes so many months after March of a year. -/
def yearAfterMarch (year k : Int) : Int := if monthAfterMarch k ≤ 2 then year + 1 else year

theorem date_eq {n era e g q t u k : Int} (h : EraDay e g q t u)
    (hn : n + 719468 = 146097 * era + e) (hk : (5 * u + 2) / 153 = k) :
    date n = (yearAfterMarch (100 * g + 4 * q + t + 400 * era) k, (monthAfterMarch k).toNat,
      (u - (153 * k + 2) / 5 + 1).toNat) := by
  have hbounds : 0 ≤ e ∧ e < 146097 := by
    obtain ⟨hsum, hg, hq, ht, hu, hleap⟩ := h
    omega
  have hera : (n + 719468) / 146097 = era := by omega
  have hday : (n + 719468) % 146097 = e := by omega
  simp only [date, hera, hday, h.yearOfEra, h.dayOfYear, hk]
  rfl

theorem daysInMonth_monthAfterMarch {k : Int} (h0 : 0 ≤ k) (h : k ≤ 10) (year : Int) :
    (daysInMonth year (monthAfterMarch k).toNat : Int) =
      (153 * (k + 1) + 2) / 5 - (153 * k + 2) / 5 := by
  interval_cases k <;> rfl

theorem EraDay.isLeapYear {e g q t : Int} (h : EraDay e g q t 365) (era : Int) :
    isLeapYear (100 * g + 4 * q + t + 400 * era + 1) := by
  obtain ⟨ht, hq⟩ := h.leap rfl
  have hblock := h.block
  have hfour : (100 * g + 4 * q + t + 400 * era + 1) % 4 = 0 := by omega
  by_cases hlast : q = 24
  · have hera : (100 * g + 4 * q + t + 400 * era + 1) % 400 = 0 := by
      have := hq hlast
      omega
    simp [Timestamp.isLeapYear, hfour, hera]
  · have hcentury : (100 * g + 4 * q + t + 400 * era + 1) % 100 ≠ 0 := by omega
    simp [Timestamp.isLeapYear, hfour, hcentury]

theorem EraDay.day_le {e g q t u k : Int} (h : EraDay e g q t u) (hk : (5 * u + 2) / 153 = k)
    (era : Int) : (u - (153 * k + 2) / 5 + 1).toNat ≤
      daysInMonth (yearAfterMarch (100 * g + 4 * q + t + 400 * era) k)
        (monthAfterMarch k).toNat := by
  have hu := h.day
  by_cases hlast : k = 11
  · subst hlast
    show _ ≤ if Timestamp.isLeapYear (100 * g + 4 * q + t + 400 * era + 1) then 29 else 28
    by_cases hleap : u = 365
    · subst hleap
      rw [h.isLeapYear era, if_pos rfl]
      omega
    · split <;> omega
  · have hlength := daysInMonth_monthAfterMarch (show 0 ≤ k by omega) (show k ≤ 10 by omega)
      (yearAfterMarch (100 * g + 4 * q + t + 400 * era) k)
    omega

theorem daysBeforeMonth_afterMarch (year : Int) {k : Int} (h0 : 0 ≤ k) (h : k ≤ 11) :
    daysBeforeMonth (yearAfterMarch year k) (monthAfterMarch k).toNat =
      365 * year + year / 4 - year / 100 + year / 400 + (153 * k + 2) / 5 := by
  have hmonth : ((monthAfterMarch k).toNat : Int) = monthAfterMarch k := by
    rw [monthAfterMarch]
    split <;> omega
  have hsince : (((monthAfterMarch k).toNat : Int) + 9) % 12 = k := by
    rw [hmonth, monthAfterMarch]
    split <;> omega
  have hyear : (if (monthAfterMarch k).toNat ≤ 2 then yearAfterMarch year k - 1
      else yearAfterMarch year k) = year := by
    rw [yearAfterMarch]
    split <;> split <;> omega
  simp only [daysBeforeMonth, hyear, hsince]

/-- **Every day number has a date**, and the date has the day number. -/
theorem date_spec (n : Int) : (1 ≤ (date n).2.1 ∧ (date n).2.1 ≤ 12) ∧
      (1 ≤ (date n).2.2 ∧ (date n).2.2 ≤ daysInMonth (date n).1 (date n).2.1) ∧
      dayNumber (date n).1 (date n).2.1 (date n).2.2 = n := by
  obtain ⟨era, hera⟩ : ∃ era, era = (n + 719468) / 146097 := ⟨_, rfl⟩
  obtain ⟨e, he⟩ : ∃ e, e = (n + 719468) % 146097 := ⟨_, rfl⟩
  have hn : n + 719468 = 146097 * era + e := by omega
  obtain ⟨g, q, t, u, hday⟩ := exists_eraDay (show 0 ≤ e by omega) (show e < 146097 by omega)
  obtain ⟨k, hk⟩ : ∃ k, (5 * u + 2) / 153 = k := ⟨_, rfl⟩
  have hle := hday.day_le hk era
  rw [date_eq hday hn hk]
  obtain ⟨hsum, hg, hq, ht, hu, -⟩ := hday
  have hk0 : 0 ≤ k := by omega
  have hk11 : k ≤ 11 := by omega
  refine ⟨?_, ⟨by dsimp only; omega, hle⟩, ?_⟩
  · dsimp only
    rw [monthAfterMarch]
    split <;> omega
  · rw [dayNumber, daysBeforeMonth_afterMarch _ hk0 hk11]
    have hfour : (100 * g + 4 * q + t + 400 * era) / 4 = 25 * g + q + 100 * era := by omega
    have hcentury : (100 * g + 4 * q + t + 400 * era) / 100 = g + 4 * era := by omega
    have hfourth : (100 * g + 4 * q + t + 400 * era) / 400 = era := by omega
    have hinMonth : (((u - (153 * k + 2) / 5 + 1).toNat : Nat) : Int) =
        u - (153 * k + 2) / 5 + 1 := by omega
    rw [hfour, hcentury, hfourth, hinMonth]
    omega

/-! ### The text -/

open Text Text.Reader

theorem run_bind_of {α β : Type} {r : Reader α} {f : α → Reader β} {cs rest : List Char}
    {a : α} (h : r.run cs = some (a, rest)) : (r >>= f).run cs = (f a).run rest := by
  rw [StateT.run_bind, h]
  rfl

theorem toList_padded {width n : Nat} (h : n < 10 ^ (width + 1)) :
    (padded (width + 1) n).toList = fixedDigits 10 (width + 1) n := by
  rw [padded, String.toList_append, String.toList_ofList, ← String.length_toList,
    Nat.toString_eq_ofList_toDigits, String.toList_ofList]
  exact replicate_append_toDigits (by decide) h

theorem isDigit_of_mem_fixedDigits {width n : Nat} (h : n < 10 ^ width) {c : Char}
    (hc : c ∈ fixedDigits 10 width n) : c.isDigit := by
  obtain ⟨d, hd, rfl⟩ := exists_of_mem_fixedDigits (by decide) h hc
  rw [Nat.isDigit_digitChar]
  exact decide_eq_true hd

theorem run_digits {width n : Nat} (h : n < 10 ^ width) (rest : List Char) :
    (digits width width).run (fixedDigits 10 width n ++ rest) = some (n, rest) := by
  have hlength := length_fixedDigits 10 width n
  have htake : (fixedDigits 10 width n ++ rest).take width = fixedDigits 10 width n :=
    List.take_left' hlength
  have hall : (fixedDigits 10 width n).takeWhile Char.isDigit = fixedDigits 10 width n :=
    List.takeWhile_eq_self_iff.mpr fun c hc => isDigit_of_mem_fixedDigits h hc
  have hdrop : (fixedDigits 10 width n ++ rest).drop width = rest := List.drop_left' hlength
  have hvalue : decimalValue (fixedDigits 10 width n) = n := valueIn_fixedDigits (by decide) h
  simp [digits, htake, hall, hlength, hdrop, hvalue]

theorem run_oneOf {c : Char} {chars : List Char} (hc : c ∈ chars) (rest : List Char) :
    (oneOf chars).run (c :: rest) = some (c, rest) := by
  simp [oneOf, satisfy, hc]

theorem run_mark (c : Char) (rest : List Char) : (mark c).run (c :: rest) = some ((), rest) := by
  show ((oneOf [c]).run (c :: rest)).bind (fun r => some ((), r.2)) = _
  rw [run_oneOf List.mem_cons_self]
  rfl

theorem run_dateEnd (rest : List Char) : dateEnd.run ('T' :: rest) = some ((), rest) := by
  show ((oneOf ['T', 't', ' ']).run ('T' :: rest)).bind (fun r => some ((), r.2)) = _
  rw [run_oneOf List.mem_cons_self]
  rfl

theorem run_offset : (offset (mark ':')).run ['+', '0', '0', ':', '0', '0'] = some (0, []) := by
  decide

theorem run_fraction_point (cs : List Char) : fraction.run ('.' :: cs) =
      ((guard (!(cs.takeWhile Char.isDigit).isEmpty) : Reader Unit).run
        (cs.dropWhile Char.isDigit)).bind fun r =>
          some (decimalValue ((cs.takeWhile Char.isDigit).take 9) *
            Nat.pow 10 (9 - ((cs.takeWhile Char.isDigit).take 9).length), r.2) :=
  rfl

theorem run_fraction {width n : Nat} (hwidth : 1 ≤ width ∧ width ≤ 9) (h : n < 10 ^ width)
    (rest : List Char) : fraction.run ('.' :: (fixedDigits 10 width n ++ '+' :: rest)) =
      some (n * 10 ^ (9 - width), '+' :: rest) := by
  have hdigit : ∀ c ∈ fixedDigits 10 width n, c.isDigit :=
    fun c hc => isDigit_of_mem_fixedDigits h hc
  have hlength := length_fixedDigits 10 width n
  have htaken : (fixedDigits 10 width n ++ '+' :: rest).takeWhile Char.isDigit =
      fixedDigits 10 width n := by
    rw [List.takeWhile_append_of_pos hdigit, List.takeWhile_cons_of_neg (by decide),
      List.append_nil]
  have hleft : (fixedDigits 10 width n ++ '+' :: rest).dropWhile Char.isDigit = '+' :: rest := by
    rw [List.dropWhile_append_of_pos hdigit, List.dropWhile_cons_of_neg (by decide)]
  have hkept : (fixedDigits 10 width n).take 9 = fixedDigits 10 width n :=
    List.take_of_length_le (by omega)
  have hsome : (!(fixedDigits 10 width n).isEmpty) := by
    have hne : fixedDigits 10 width n ≠ [] := List.ne_nil_of_length_pos (by omega)
    simpa using hne
  have hvalue : decimalValue (fixedDigits 10 width n) = n := valueIn_fixedDigits (by decide) h
  rw [run_fraction_point, htaken, hleft, hkept, hlength, hvalue, hsome]
  rfl

/-- **The fraction of a second is read back.** -/
theorem run_fractionText {n : Nat} (h : n < 1000000000) (rest : List Char) :
    fraction.run ((fractionText n).toList ++ '+' :: rest) = some (n, '+' :: rest) := by
  have hpoint : ∀ {width m : Nat}, width ≤ 8 → m < 10 ^ (width + 1) → m * 10 ^ (8 - width) = n →
      fraction.run (("." ++ padded (width + 1) m).toList ++ '+' :: rest) =
        some (n, '+' :: rest) := by
    intro width m hwidth hm hn
    rw [String.toList_append, toList_padded hm]
    show fraction.run ('.' :: (fixedDigits 10 (width + 1) m ++ '+' :: rest)) = _
    have hplaces : 9 - (width + 1) = 8 - width := by omega
    rw [run_fraction (by omega) hm, hplaces, hn]
  rw [fractionText]
  split
  · next hzero =>
    subst hzero
    rfl
  · split
    · exact hpoint (by decide) (by omega) (by omega)
    · split
      · exact hpoint (by decide) (by omega) (by omega)
      · exact hpoint (by decide) (by omega) (by omega)

/-! ### Fields -/

namespace Fields

/-- What the fields of a written moment can be. -/
structure InRange (f : Fields) : Prop where
  year : 0 ≤ f.year ∧ f.year ≤ 9999
  month : 1 ≤ f.month ∧ f.month ≤ 12
  day : 1 ≤ f.day ∧ f.day ≤ daysInMonth f.year f.month
  hour : f.hour ≤ 23
  minute : f.minute ≤ 59
  second : f.second ≤ 60
  nanos : f.nanos < 1000000000
  offset : f.offset = 0

theorem InRange.day_le {f : Fields} (h : f.InRange) : f.day ≤ 31 := by
  refine h.day.2.trans ?_
  unfold daysInMonth
  split
  · split <;> decide
  · decide
  · decide
  · decide
  · decide
  · decide

def text (f : Fields) : String :=
  yearText f.year ++ "-" ++ padded 2 f.month ++ "-" ++ padded 2 f.day ++ "T" ++ padded 2 f.hour ++
    ":" ++ padded 2 f.minute ++ ":" ++ padded 2 f.second ++ fractionText f.nanos ++ "+00:00"

theorem InRange.toList_text {f : Fields} (h : f.InRange) : f.text.toList =
      fixedDigits 10 4 f.year.toNat ++ '-' :: (fixedDigits 10 2 f.month ++ '-' ::
        (fixedDigits 10 2 f.day ++ 'T' :: (fixedDigits 10 2 f.hour ++ ':' ::
          (fixedDigits 10 2 f.minute ++ ':' :: (fixedDigits 10 2 f.second ++
            ((fractionText f.nanos).toList ++ ['+', '0', '0', ':', '0', '0'])))))) := by
  have htwo : ∀ {n : Nat}, n ≤ 60 → (padded 2 n).toList = fixedDigits 10 2 n :=
    fun hn => toList_padded (by omega)
  have hyear : (yearText f.year).toList = fixedDigits 10 4 f.year.toNat := by
    rw [yearText, if_pos h.year]
    exact toList_padded (by have := h.year; omega)
  simp only [text, String.toList_append, List.append_assoc]
  rw [hyear, htwo (h.month.2.trans (by decide)), htwo (h.day_le.trans (by decide)),
    htwo (h.hour.trans (by decide)), htwo (h.minute.trans (by decide)), htwo h.second]
  rfl

/-- **Fields are read back from their text.** -/
theorem InRange.run_exactFields {f : Fields} (h : f.InRange) :
    exactFields.run f.text.toList = some (f, []) := by
  have htwo : ∀ {n : Nat}, n ≤ 60 → n < 10 ^ 2 := fun hn => by omega
  have hvalue : (f.year.toNat : Int) = f.year := Int.toNat_of_nonneg h.year.1
  have hyear := run_digits (show f.year.toNat < 10 ^ 4 by have := h.year; omega)
  have hmonth := run_digits (htwo (h.month.2.trans (by decide)))
  have hday := run_digits (htwo (h.day_le.trans (by decide)))
  have hhour := run_digits (htwo (h.hour.trans (by decide)))
  have hminute := run_digits (htwo (h.minute.trans (by decide)))
  have hsecond := run_digits (htwo h.second)
  rw [h.toList_text, exactFields, run_bind_of (hyear _), run_bind_of (run_mark '-' _),
    run_bind_of (hmonth _), run_bind_of (run_mark '-' _), run_bind_of (hday _),
    run_bind_of (run_dateEnd _), run_bind_of (hhour _), run_bind_of (run_mark ':' _),
    run_bind_of (hminute _), run_bind_of (run_mark ':' _), run_bind_of (hsecond _),
    run_bind_of (run_fractionText h.nanos _), run_bind_of run_offset, hvalue, ← h.offset]
  rfl

end Fields

/-! ### Moments -/

/-- A moment as clocks tell it: a leap second only stands at the end of a minute. -/
structure Sound (t : Timestamp) : Prop where
  nanos : t.nanos < 2000000000
  leap : 1000000000 ≤ t.nanos → t.seconds % 60 = 59

instance (t : Timestamp) : Decidable t.Sound :=
  decidable_of_iff (t.nanos < 2000000000 ∧ (1000000000 ≤ t.nanos → t.seconds % 60 = 59))
    ⟨fun h => ⟨h.1, h.2⟩, fun h => ⟨h.nanos, h.leap⟩⟩

def FourDigits (t : Timestamp) : Prop :=
  0 ≤ (date (t.seconds / 86400)).1 ∧ (date (t.seconds / 86400)).1 ≤ 9999

instance (t : Timestamp) : Decidable t.FourDigits := inferInstanceAs (Decidable (_ ∧ _))

def fields (t : Timestamp) : Fields where
  year := (date (t.seconds / 86400)).1
  month := (date (t.seconds / 86400)).2.1
  day := (date (t.seconds / 86400)).2.2
  hour := (t.seconds % 86400).toNat / 3600
  minute := (t.seconds % 86400).toNat / 60 % 60
  second := (t.seconds % 86400).toNat % 60 + t.nanos / 1000000000
  nanos := t.nanos % 1000000000
  offset := 0

theorem numericText_eq (t : Timestamp) : t.numericText = t.fields.text := by
  rw [numericText, textWith, Fields.text, fields]

theorem Sound.inRange {t : Timestamp} (h : t.Sound) (hyear : t.FourDigits) : t.fields.InRange := by
  obtain ⟨hmonth, hday, -⟩ := date_spec (t.seconds / 86400)
  have hnanos := h.nanos
  have hleap := h.leap
  refine ⟨hyear, hmonth, hday, ?_, ?_, ?_, Nat.mod_lt _ (by decide), rfl⟩
  · show (t.seconds % 86400).toNat / 3600 ≤ 23
    omega
  · show (t.seconds % 86400).toNat / 60 % 60 ≤ 59
    omega
  · show (t.seconds % 86400).toNat % 60 + t.nanos / 1000000000 ≤ 60
    omega

theorem Sound.ofFields?_fields {t : Timestamp} (h : t.Sound) (hfour : t.FourDigits) :
    ofFields? t.fields = some t := by
  have hrange := h.inRange hfour
  have hyear := hrange.year
  have hnumber : dayNumber t.fields.year t.fields.month t.fields.day = t.seconds / 86400 :=
    (date_spec (t.seconds / 86400)).2.2
  have hhour : t.fields.hour = (t.seconds % 86400).toNat / 3600 := rfl
  have hminute : t.fields.minute = (t.seconds % 86400).toNat / 60 % 60 := rfl
  have hsecond : t.fields.second = (t.seconds % 86400).toNat % 60 + t.nanos / 1000000000 := rfl
  have hnanos : t.fields.nanos = t.nanos % 1000000000 := rfl
  -- only a leap second is written as the sixtieth of its minute
  have hleap : (if t.fields.second = 60 then 1 else 0) = t.nanos / 1000000000 := by
    have hless := h.nanos
    have hend := h.leap
    rw [hsecond]
    split <;> omega
  rw [ofFields?, if_pos ⟨hrange.month.1, hrange.month.2, hrange.day.1, hrange.day.2, by omega,
    by omega, hrange.hour, hrange.minute, hrange.second, by rw [hrange.offset]; decide⟩]
  dsimp only
  rw [hleap, hnumber, hhour, hminute, hsecond, hnanos, hrange.offset, Option.some.injEq]
  have hseconds : t.seconds / 86400 * 86400 + ((t.seconds % 86400).toNat / 3600 : Nat) * 3600 +
      ((t.seconds % 86400).toNat / 60 % 60 : Nat) * 60 +
      ((t.seconds % 86400).toNat % 60 + t.nanos / 1000000000 - t.nanos / 1000000000 : Nat) -
      0 * 60 = t.seconds := by omega
  have hwhole : t.nanos % 1000000000 + t.nanos / 1000000000 * 1000000000 = t.nanos := by omega
  rw [hseconds, hwhole]

theorem run_exactFields_sign {sign : Char} (hsign : sign.isDigit = false) (cs : List Char) :
    exactFields.run (sign :: cs) = none := by
  have hyear : (digits 4 4).run (sign :: cs) = none := by
    simp [digits, hsign]
  rw [exactFields, StateT.run_bind, hyear]
  rfl

theorem exists_sign {year : Int} (h : ¬(0 ≤ year ∧ year ≤ 9999)) : ∃ sign cs, sign.isDigit = false ∧
      (yearText year).toList = sign :: cs := by
  rw [yearText, if_neg h, String.toList_append]
  split
  · exact ⟨'-', _, by decide, rfl⟩
  · exact ⟨'+', _, by decide, rfl⟩

/-- **Moments are read back from their texts**, but for those in years that need a sign. -/
theorem parse?_numericText {t : Timestamp} (h : t.Sound) :
    parse? t.numericText = if t.FourDigits then some t else none := by
  rw [parse?, read?, all, numericText_eq]
  split
  · next hyear =>
    rw [(h.inRange hyear).run_exactFields]
    exact h.ofFields?_fields hyear
  · next hyear =>
    obtain ⟨sign, cs, hsign, hcs⟩ := exists_sign hyear
    have htext : ∃ rest, t.fields.text.toList = sign :: rest := by
      simp only [Fields.text, String.toList_append]
      rw [show yearText t.fields.year = yearText (date (t.seconds / 86400)).1 from rfl, hcs]
      exact ⟨_, rfl⟩
    obtain ⟨rest, hrest⟩ := htext
    rw [hrest, run_exactFields_sign hsign]
    rfl

end AppAtlas.Timestamp
