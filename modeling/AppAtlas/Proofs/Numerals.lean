import AppAtlas.Identity
import Mathlib.Tactic.IntervalCases
import Mathlib.Tactic.Ring

/-!
# Numbers as digits

Numbers are written in two ways: with as many digits as they need, and with zeros in front up to a
width.  Both are `Text.fixedDigits` of some width, the digits of that many places from the highest
place down, and everything about reading is proved of these by one induction on the width.

* `readNatural_toString`, `parseHex_hex16`: what is written is read back.
* `compare_hex16`: identities as texts have the order that they have as numbers, because all of them
  are equally long.
-/

namespace AppAtlas

open List

namespace Text

/-! ### Single digits -/

theorem digitIn?_digitChar {base d : Nat} (hb : base ≤ 16) (h : d < base) :
    digitIn? base d.digitChar = some d := by
  have hd : d < 16 := by omega
  interval_cases d <;> simp [digitIn?, h] <;> decide

theorem toNat_digitChar {d : Nat} (h : d < 16) :
    d.digitChar.toNat = if d < 10 then 48 + d else 87 + d := by
  interval_cases d <;> rfl

theorem digitChar_lt {d e : Nat} (h : d < e) (he : e < 16) : d.digitChar < e.digitChar := by
  show d.digitChar.toNat < e.digitChar.toNat
  rw [toNat_digitChar (by omega), toNat_digitChar he]
  split <;> split <;> omega

theorem isBlank_digitChar {d : Nat} (h : d < 16) : isBlank d.digitChar = false := by
  interval_cases d <;> rfl

/-! ### Digits of a width -/

def fixedDigits (base : Nat) : Nat → Nat → List Char
  | 0, _ => []
  | width + 1, n => Nat.digitChar (n / base ^ width) :: fixedDigits base width (n % base ^ width)

variable {base width n m : Nat}

theorem length_fixedDigits (base width n : Nat) : (fixedDigits base width n).length = width := by
  induction width generalizing n with
  | zero => rfl
  | succ width ih => rw [fixedDigits, length_cons, ih]

theorem exists_fixedDigits_succ (hb : 0 < base) (h : n < base ^ (width + 1)) : ∃ d r, d < base ∧
    r < base ^ width ∧ n = base ^ width * d + r ∧
    fixedDigits base (width + 1) n = d.digitChar :: fixedDigits base width r := by
  have hpos : 0 < base ^ width := Nat.pow_pos hb
  refine ⟨n / base ^ width, n % base ^ width, ?_, Nat.mod_lt n hpos, (Nat.div_add_mod _ _).symm,
    rfl⟩
  rw [Nat.div_lt_iff_lt_mul hpos, ← Nat.pow_succ']
  exact h

theorem fixedDigits_succ (h : n < base ^ (width + 1)) : fixedDigits base (width + 1) n =
      fixedDigits base width (n / base) ++ [Nat.digitChar (n % base)] := by
  induction width generalizing n with
  | zero =>
    have hn : n < base := by simpa using h
    simp [fixedDigits, Nat.mod_eq_of_lt hn]
  | succ width ih =>
    have hpos : 0 < base ^ (width + 1) := Nat.pos_of_ne_zero fun h0 => by
      rw [Nat.pow_succ, h0] at h
      omega
    rw [fixedDigits, ih (Nat.mod_lt n hpos), fixedDigits, Nat.pow_succ', Nat.mod_mul_right_div_self,
      Nat.mod_mul_right_mod, Nat.div_div_eq_div_mul, cons_append]

theorem exists_of_mem_fixedDigits (hb : 0 < base) (h : n < base ^ width) {c : Char}
    (hc : c ∈ fixedDigits base width n) : ∃ d < base, c = d.digitChar := by
  induction width generalizing n with
  | zero => simp [fixedDigits] at hc
  | succ width ih =>
    obtain ⟨d, r, hd, hr, -, heq⟩ := exists_fixedDigits_succ hb h
    rcases mem_cons.mp (heq ▸ hc) with rfl | hc
    · exact ⟨d, hd, rfl⟩
    · exact ih hr hc

theorem fixedDigits_zero (base width : Nat) : fixedDigits base width 0 = replicate width '0' := by
  induction width with
  | zero => rfl
  | succ width ih => rw [fixedDigits, Nat.zero_mod, Nat.zero_div, ih, replicate_succ]; rfl

/-- **A number with zeros in front** up to a width is its digits of that width. -/
theorem replicate_append_toDigits (hb : 1 < base) (h : n < base ^ (width + 1)) :
    replicate (width + 1 - (base.toDigits n).length) '0' ++ base.toDigits n =
      fixedDigits base (width + 1) n := by
  induction width generalizing n with
  | zero =>
    have hn : n < base := by simpa using h
    simp [Nat.toDigits_of_lt_base hn, fixedDigits]
  | succ width ih =>
    rw [fixedDigits_succ h]
    by_cases hn : n < base
    · rw [Nat.toDigits_of_lt_base hn, Nat.div_eq_of_lt hn, Nat.mod_eq_of_lt hn, fixedDigits_zero]
      simp
    · have hrest : n / base < base ^ (width + 1) := by
        rw [Nat.div_lt_iff_lt_mul (by omega), ← Nat.pow_succ]
        exact h
      rw [Nat.toDigits_of_base_le hb (by omega), ← ih hrest, length_append,
        length_singleton, Nat.add_sub_add_right, append_assoc]

/-- A number with the digits it needs is its digits of some width, and the first is not zero unless
the number is. -/
theorem exists_toDigits (hb : 1 < base) (n : Nat) : ∃ width, n < base ^ (width + 1) ∧
    (n ≠ 0 → base ^ width ≤ n) ∧ base.toDigits n = fixedDigits base (width + 1) n := by
  obtain ⟨width, hwidth⟩ := Nat.exists_eq_succ_of_ne_zero
    (Nat.pos_iff_ne_zero.mp (Nat.length_toDigits_pos (b := base) (n := n)))
  have hlt : n < base ^ (width + 1) :=
    (Nat.length_toDigits_le_iff hb (Nat.succ_pos width)).mp hwidth.le
  refine ⟨width, hlt, fun hn => ?_, ?_⟩
  · cases width with
    | zero => simpa using Nat.one_le_iff_ne_zero.mpr hn
    | succ width =>
      by_contra hless
      have := (Nat.length_toDigits_le_iff hb (Nat.succ_pos width)).mpr (not_le.mp hless)
      omega
  · rw [← replicate_append_toDigits hb hlt, hwidth]
    simp

/-! ### Reading -/

theorem fixedDigits_lt (hb : base ≤ 16) (hm : m < base ^ width) (hn : n < base ^ width)
    (h : m < n) : fixedDigits base width m < fixedDigits base width n := by
  have hpos : 0 < base ^ width := by omega
  induction width generalizing m n with
  | zero =>
    have : n = 0 := by simpa using hn
    omega
  | succ width ih =>
    have hbase : 0 < base := Nat.pos_of_ne_zero fun h0 => by simp [h0] at hpos
    obtain ⟨d, r, hd, hr, hmr, hmd⟩ := exists_fixedDigits_succ hbase hm
    obtain ⟨e, q, he, hq, hnq, hne⟩ := exists_fixedDigits_succ hbase hn
    rw [hmd, hne, cons_lt_cons_iff]
    rcases Nat.lt_trichotomy d e with hde | rfl | hde
    · exact .inl (digitChar_lt hde (by omega))
    · exact .inr ⟨rfl, ih hr hq (by omega) (Nat.pow_pos hbase)⟩
    · have : base ^ width * (e + 1) ≤ base ^ width * d := Nat.mul_le_mul_left _ hde
      rw [Nat.mul_succ] at this
      omega

theorem foldl_fixedDigits (hb : base ≤ 16) (h : n < base ^ width) (v : Nat) :
    (fixedDigits base width n).foldl (fun v d => base * v + (digitIn? base d).getD 0) v =
      base ^ width * v + n := by
  induction width generalizing n v with
  | zero =>
    have hn : n = 0 := by simpa using h
    simp [fixedDigits, hn]
  | succ width ih =>
    have hbase : 0 < base := Nat.pos_of_ne_zero fun h0 => by simp [h0] at h
    obtain ⟨d, r, hd, hr, rfl, heq⟩ := exists_fixedDigits_succ hbase h
    rw [heq, foldl_cons, ih hr, digitIn?_digitChar hb hd, Option.getD_some]
    ring

theorem valueIn_fixedDigits (hb : base ≤ 16) (h : n < base ^ width) :
    valueIn base (fixedDigits base width n) = n := by
  rw [valueIn, foldl_fixedDigits hb h, Nat.mul_zero, Nat.zero_add]

end Text

open Text

variable {base limit width n : Nat}

theorem readDigits_fixedDigits (hb : base ≤ 16) (h : n < base ^ width) {v : Nat}
    (hlimit : base ^ width * v + n < limit) :
    readDigits base limit v (fixedDigits base width n) = .ok (base ^ width * v + n) := by
  induction width generalizing n v with
  | zero =>
    have hn : n = 0 := by simpa using h
    simp [fixedDigits, readDigits, hn]
  | succ width ih =>
    have hbase : 0 < base := Nat.pos_of_ne_zero fun h0 => by simp [h0] at h
    obtain ⟨d, r, hd, hr, rfl, heq⟩ := exists_fixedDigits_succ hbase h
    have hvalue : base ^ width * (v * base + d) + r =
        base ^ (width + 1) * v + (base ^ width * d + r) := by ring
    have hstep : v * base + d < limit := by
      have : v * base + d ≤ base ^ width * (v * base + d) :=
        Nat.le_mul_of_pos_left _ (Nat.pow_pos hbase)
      omega
    rw [heq, readDigits, digitIn?_digitChar hb hd]
    dsimp only
    rw [if_pos hstep, ih hr (by omega), hvalue]

theorem readNatural_fixedDigits (hb : base ≤ 16) (h : n < base ^ (width + 1)) (hlimit : n < limit) :
    readNatural base limit (fixedDigits base (width + 1) n) = .ok n := by
  have hbase : 0 < base := Nat.pos_of_ne_zero fun h0 => by simp [h0] at h
  have hread : readDigits base limit 0 (fixedDigits base (width + 1) n) = .ok n := by
    have hzero : base ^ (width + 1) * 0 + n = n := by omega
    rw [readDigits_fixedDigits hb h (by omega), hzero]
  obtain ⟨d, r, hd, -, -, heq⟩ := exists_fixedDigits_succ hbase h
  rw [heq] at hread ⊢
  have hplus : d.digitChar ≠ '+' := Nat.digitChar_ne '+' (by decide)
  have hminus : d.digitChar ≠ '-' := Nat.digitChar_ne '-' (by decide)
  rw [← hread]
  unfold readNatural
  split <;> simp_all

/-- **Numbers in decimal are read back.** -/
theorem readNatural_toString (h : n < limit) :
    readNatural 10 limit (toString n).toList = .ok n := by
  obtain ⟨width, hwidth, -, heq⟩ := exists_toDigits (show 1 < 10 by decide) n
  rw [Nat.toString_eq_ofList_toDigits, String.toList_ofList, heq]
  exact readNatural_fixedDigits (by decide) hwidth h

/-! ### Identities -/

theorem toNat_lt_pow (n : UInt64) : n.toNat < 16 ^ 16 := n.toNat_lt

theorem toList_hex16 (n : UInt64) : (hex16 n).toList = fixedDigits 16 16 n.toNat := by
  rw [hex16, String.toList_ofList, hexDigits]
  exact replicate_append_toDigits (by decide) (toNat_lt_pow n)

theorem Text.trim_eq_self {cs : List Char} (h : ∀ c ∈ cs, isBlank c = false) : trim cs = cs := by
  have hkeep : ∀ {ds : List Char}, (∀ c ∈ ds, isBlank c = false) → ds.dropWhile isBlank = ds :=
    fun hds => dropWhile_eq_self_of_head fun c hc => hds c (mem_of_head? hc)
  rw [trim, trimWhere, hkeep h, dropEnd, hkeep fun c hc => h c (mem_reverse.mp hc),
    reverse_reverse]

/-- **Identities as texts are read back.** -/
theorem parseHex_hex16 (n : UInt64) : parseHex (hex16 n) = .ok n := by
  have hblank : ∀ c ∈ fixedDigits 16 16 n.toNat, isBlank c = false := by
    intro c hc
    obtain ⟨d, hd, rfl⟩ := exists_of_mem_fixedDigits (by decide) (toNat_lt_pow n) hc
    exact isBlank_digitChar hd
  rw [parseHex, toList_hex16, trim_eq_self hblank,
    readNatural_fixedDigits (le_refl 16) (toNat_lt_pow n) n.toNat_lt]
  exact congrArg Except.ok (UInt64.ofNat_toNat)

theorem hex16_lt {m n : UInt64} (h : m < n) : hex16 m < hex16 n := by
  rw [String.lt_iff, toList_hex16, toList_hex16]
  exact fixedDigits_lt (le_refl 16) (toNat_lt_pow m) (toNat_lt_pow n) (UInt64.lt_iff_toNat_lt.mp h)

/-- **Identities as texts have the order of numbers.** -/
theorem compare_hex16 (m n : UInt64) : compare (hex16 m) (hex16 n) = compare m n := by
  have htexts : ∀ {s t : String}, s < t → compare s t = .lt := fun h => if_pos h
  rcases Std.lt_trichotomy m n with h | rfl | h
  · rw [Std.compare_eq_lt.mpr h, htexts (hex16_lt h)]
  · rw [Std.compare_self, Std.compare_self]
  · rw [Std.compare_eq_gt.mpr h, Std.OrientedOrd.eq_swap, htexts (hex16_lt h)]
    rfl

theorem hex16_injective {m n : UInt64} (h : hex16 m = hex16 n) : m = n := by
  have hm := parseHex_hex16 m
  rw [h, parseHex_hex16 n] at hm
  exact (Except.ok.inj hm).symm

namespace NodeId

theorem parse_text (id : NodeId) : parse id.text = .ok id := by
  rw [parse, text, parseHex_hex16]
  rfl

theorem text_injective {a b : NodeId} (h : a.text = b.text) : a = b := by
  cases a; cases b
  exact congrArg mk (hex16_injective h)

theorem compare_text (a b : NodeId) : compare a.text b.text = compare a b :=
  compare_hex16 a.val b.val

end NodeId

namespace EdgeId

theorem parse_text (id : EdgeId) : parse id.text = .ok id := by
  rw [parse, text, parseHex_hex16]
  rfl

theorem text_injective {a b : EdgeId} (h : a.text = b.text) : a = b := by
  cases a; cases b
  exact congrArg mk (hex16_injective h)

theorem compare_text (a b : EdgeId) : compare a.text b.text = compare a b :=
  compare_hex16 a.val b.val

end EdgeId

theorem FileKey.text_injective {a b : FileKey} (h : a.text = b.text) : a = b := by
  cases a; cases b
  exact congrArg FileKey.mk h

end AppAtlas
