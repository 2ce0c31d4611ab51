import AppAtlas.Graph.Edge

/-!
# The order of confidences

Joining what several files say about an edge takes the greatest confidence, one comparison after the
other.  For this to be the greatest of all, the strict order has to be transitive, and two
confidences have to be comparable.  `Confidence.Ordered` has the two laws; doubles satisfy them
because a double that is not a number is no confidence.  That the greatest confidence does not hang
on the order of the comparisons needs one law more, `Confidence.Linear`: confidences that are not
apart in the order are the same.

* `Confidence.greatest?_eq`: lists that bound each other have the same greatest entry.
* `Edge.foldl_merge_ends`, `Edge.foldl_merge_confidence`, `Edge.mem_evidence_foldl_merge`: what
  joining a list of edges gives.
* `Edge.join_congr`: what of the edges the result depends on.
-/

namespace AppAtlas

open List

/-- Number types whose confidences are in order. -/
class Confidence.Ordered (κ : Type) [Confidence κ] : Prop where
  lt_irrefl : ∀ a : κ, ¬a < a
  lt_trans : ∀ a b c : κ, a < b → b < c → a < c
  le_of_not_lt : ∀ a b : κ, Confidence.isUnit a → Confidence.isUnit b → ¬a < b → b ≤ a

/-- Number types in which two confidences of which neither is below the other are the same. -/
class Confidence.Linear (κ : Type) [Confidence κ] : Prop extends Confidence.Ordered κ where
  eq_of_not_lt : ∀ a b : κ, Confidence.isUnit a → Confidence.isUnit b → ¬a < b → ¬b < a → a = b

theorem Confidence.zero_lt_of_isUnit {κ : Type} [Confidence κ] {a : κ} (h : Confidence.isUnit a) :
    (0.0 : κ) < a := by
  rw [Confidence.isUnit, Bool.and_eq_true, decide_eq_true_iff] at h
  exact h.1

/-! ### Doubles -/

namespace Double

open Float.Model

/-- The place of a double in the order of doubles: its class first, then exponent and mantissa,
which count downwards for a negative one.  What is not a number has no place. -/
def place? : UnpackedFloat → Option (Int × Int × Int)
  | .notANumber => none
  | .infinity .negative => some (-2, 0, 0)
  | .finite .negative m e _ => some (-1, -e, -(m : Int))
  | .zero _ => some (0, 0, 0)
  | .finite .positive m e _ => some (1, e, m)
  | .infinity .positive => some (2, 0, 0)

/-- Places are ordered by their first entry, then by their second and third. -/
def order : Int × Int × Int → Int × Int × Int → Ordering :=
  compareLex (compareOn fun x => x.1)
    (compareLex (compareOn fun x => x.2.1) (compareOn fun x => x.2.2))

instance : Std.TransCmp order :=
  inferInstanceAs (Std.TransCmp (compareLex (compareOn fun x : Int × Int × Int => x.1)
    (compareLex (compareOn fun x => x.2.1) (compareOn fun x => x.2.2))))

theorem compare_neg (a b : Int) : compare (-a) (-b) = (compare a b).swap := by
  rw [Int.compare_swap]
  simp only [Int.compare_eq_ite_lt, Int.neg_lt_neg_iff]

theorem compare_natCast (m n : Nat) : compare (m : Int) n = compare m n := by
  simp only [Int.compare_eq_ite_lt, Nat.compare_eq_ite_lt, Int.ofNat_lt]

/-- **Doubles are compared by their places.** -/
theorem compare_eq_order (a b : UnpackedFloat) :
    a.compare b = (place? a).bind fun x => (place? b).map fun y => order x y := by
  cases a with
  | notANumber => rfl
  | infinity s =>
    cases b with
    | notANumber => cases s <;> rfl
    | infinity s' => cases s <;> cases s' <;> rfl
    | zero s' => cases s <;> rfl
    | finite s' m e h => cases s <;> cases s' <;> rfl
  | zero s =>
    cases b with
    | notANumber => rfl
    | infinity s' => cases s' <;> rfl
    | zero s' => rfl
    | finite s' m e h => cases s' <;> rfl
  | finite s m e h =>
    cases b with
    | notANumber => cases s <;> rfl
    | infinity s' => cases s <;> cases s' <;> rfl
    | zero s' => cases s <;> rfl
    | finite s' m' e' h' =>
      cases s <;> cases s'
      · show some (((compare e e').then (compare m m')).swap) =
          some (compare (-e) (-e') |>.then (compare (-(m : Int)) (-(m' : Int))))
        rw [compare_neg, compare_neg, compare_natCast, Ordering.swap_then]
      · rfl
      · rfl
      · show some ((compare e e').then (compare m m')) =
          some ((compare e e').then (compare (m : Int) (m' : Int)))
        rw [compare_natCast]

def placeOf? (a : Float) : Option (Int × Int × Int) := place? a.toModel.unpack

theorem lt_iff_compare {a b : Float} :
    a < b ↔ a.toModel.unpack.compare b.toModel.unpack = some .lt := by
  show decide (a.toModel < b.toModel) ↔ _
  rw [decide_eq_true_iff]
  show UnpackedFloat.lt _ _ ↔ _
  rw [UnpackedFloat.lt, beq_iff_eq]

theorem lt_iff {a b : Float} :
    a < b ↔ ∃ x y, placeOf? a = some x ∧ placeOf? b = some y ∧ order x y = .lt := by
  rw [lt_iff_compare, compare_eq_order, Option.bind_eq_some_iff]
  simp only [Option.map_eq_some_iff, placeOf?]
  constructor
  · rintro ⟨x, hx, y, hy, hxy⟩
    exact ⟨x, y, hx, hy, hxy⟩
  · rintro ⟨x, y, hx, hy, hxy⟩
    exact ⟨x, hx, y, hy, hxy⟩

theorem le_of_order {a b : Float} {x y : Int × Int × Int} (hx : placeOf? a = some x)
    (hy : placeOf? b = some y) (h : (order x y).isLE) : a ≤ b := by
  show decide (a.toModel ≤ b.toModel)
  rw [decide_eq_true_iff]
  show (a.toModel.unpack.compare b.toModel.unpack).any (·.isLE)
  rw [placeOf?] at hx hy
  rw [compare_eq_order, hx, hy]
  exact h

theorem exists_place {a : Float} (h : Confidence.isUnit a) : ∃ x, placeOf? a = some x := by
  obtain ⟨_, x, _, hx, _⟩ := lt_iff.mp (Confidence.zero_lt_of_isUnit h)
  exact ⟨x, hx⟩

end Double

instance : Confidence.Ordered Float where
  lt_irrefl a haa := by
    obtain ⟨x, y, hx, hy, hxy⟩ := Double.lt_iff.mp haa
    obtain rfl : x = y := Option.some.inj (hx.symm.trans hy)
    have hself : Double.order x x = .eq := Std.ReflCmp.compare_self
    rw [hself] at hxy
    exact absurd hxy (by decide)
  lt_trans a b c hab hbc := by
    obtain ⟨x, y, hx, hy, hxy⟩ := Double.lt_iff.mp hab
    obtain ⟨y', z, hy', hz, hyz⟩ := Double.lt_iff.mp hbc
    obtain rfl : y = y' := Option.some.inj (hy.symm.trans hy')
    exact Double.lt_iff.mpr ⟨x, z, hx, hz, Std.TransCmp.lt_trans hxy hyz⟩
  le_of_not_lt a b ha hb hab := by
    obtain ⟨x, hx⟩ := Double.exists_place ha
    obtain ⟨y, hy⟩ := Double.exists_place hb
    refine Double.le_of_order hy hx ?_
    -- what is not below is equal or above
    have hxy : Double.order x y ≠ .lt := fun h => hab (Double.lt_iff.mpr ⟨x, y, hx, hy, h⟩)
    have hswap : Double.order y x = (Double.order x y).swap := Std.OrientedCmp.eq_swap
    rw [hswap]
    cases h : Double.order x y with
    | lt => exact absurd h hxy
    | eq => rfl
    | gt => rfl

instance : Confidence.Ordered Rat where
  lt_irrefl _ := Rat.lt_irrefl
  lt_trans a b c hab hbc := by grind
  le_of_not_lt _ _ _ _ h := Rat.not_lt.mp h

instance : Confidence.Linear Rat where
  eq_of_not_lt a b _ _ hab hba := by grind

/-! ### The greatest of a list -/

namespace Confidence

variable {κ : Type} [Confidence κ]

theorem foldl_max_mem (xs : List κ) (a : κ) : xs.foldl max a ∈ a :: xs := by
  induction xs generalizing a with
  | nil => exact mem_cons_self
  | cons b xs ih =>
    rw [foldl_cons]
    rcases mem_cons.mp (ih (max a b)) with hmax | hin
    · rw [hmax, max]
      split
      · exact mem_cons_of_mem a mem_cons_self
      · exact mem_cons_self
    · exact mem_cons_of_mem a (mem_cons_of_mem b hin)

def greatest? : List κ → Option κ
  | [] => none
  | a :: as => some (as.foldl max a)

theorem greatest?_of_forall_eq {xs : List κ} {a : κ} (h : ∀ x ∈ xs, x = a) (hne : xs ≠ []) :
    greatest? xs = some a := by
  cases xs with
  | nil => exact absurd rfl hne
  | cons b xs => rw [greatest?, h _ (foldl_max_mem xs b)]

theorem mem_of_greatest? {xs : List κ} {a : κ} (h : greatest? xs = some a) : a ∈ xs := by
  cases xs with
  | nil => exact absurd h (by simp [greatest?])
  | cons b xs => exact Option.some.inj h ▸ foldl_max_mem xs b

section

variable [Ordered κ]

theorem not_max_lt {a b y : κ} (h : ¬a < y) : ¬max a b < y := by
  rw [max]
  split
  · next hab => exact fun hby => h (Ordered.lt_trans a b y hab hby)
  · exact h

theorem not_foldl_max_lt {a y : κ} (xs : List κ) (h : ¬a < y) : ¬xs.foldl max a < y := by
  induction xs generalizing a with
  | nil => exact h
  | cons b xs ih => exact ih (not_max_lt h)

theorem not_foldl_max_lt_mem (xs : List κ) (a : κ) : ∀ x ∈ a :: xs, ¬xs.foldl max a < x := by
  induction xs generalizing a with
  | nil =>
    intro x hx
    obtain rfl := mem_singleton.mp hx
    exact Ordered.lt_irrefl x
  | cons b xs ih =>
    intro x hx
    rcases mem_cons.mp hx with rfl | hx
    · exact not_foldl_max_lt (b :: xs) (Ordered.lt_irrefl x)
    · rcases mem_cons.mp hx with rfl | hx
      · refine not_foldl_max_lt xs ?_
        rw [max]
        split
        · exact Ordered.lt_irrefl x
        · next hax => exact hax
      · exact ih _ x (mem_cons_of_mem _ hx)

theorem not_greatest?_lt {xs : List κ} {a : κ} (h : greatest? xs = some a) : ∀ x ∈ xs, ¬a < x := by
  cases xs with
  | nil => exact absurd h (by simp [greatest?])
  | cons b xs => exact Option.some.inj h ▸ not_foldl_max_lt_mem xs b

/-- **The maximum taken along a list of confidences is the greatest of the list.** -/
theorem le_foldl_max {xs : List κ} {a : κ} (h : ∀ x ∈ a :: xs, isUnit x) :
    ∀ x ∈ a :: xs, x ≤ xs.foldl max a := fun x hx =>
  Ordered.le_of_not_lt _ x (h _ (foldl_max_mem xs a)) (h x hx) (not_foldl_max_lt_mem xs a x hx)

end

variable [Linear κ]

theorem not_lt_trans {a b c : κ} (ha : isUnit a) (hb : isUnit b) (hab : ¬a < b)
    (hbc : ¬b < c) : ¬a < c := by
  intro hac
  by_cases hba : b < a
  · exact hbc (Ordered.lt_trans b a c hba hac)
  · rw [Linear.eq_of_not_lt a b ha hb hab hba] at hac
    exact hbc hac

/-- **Two lists of confidences that bound each other have the same greatest entry.** -/
theorem greatest?_eq {xs ys : List κ} (hx : ∀ x ∈ xs, isUnit x) (hy : ∀ y ∈ ys, isUnit y)
    (hxy : ∀ x ∈ xs, ∃ y ∈ ys, ¬y < x) (hyx : ∀ y ∈ ys, ∃ x ∈ xs, ¬x < y) :
    greatest? xs = greatest? ys := by
  cases ha : greatest? xs with
  | none =>
    cases hb : greatest? ys with
    | none => rfl
    | some b =>
      obtain ⟨x, hmem, -⟩ := hyx b (mem_of_greatest? hb)
      cases xs with
      | nil => cases hmem
      | cons _ _ => exact absurd ha (by simp [greatest?])
  | some a =>
    have hamem := mem_of_greatest? ha
    obtain ⟨y, hymem, hya⟩ := hxy a hamem
    cases hb : greatest? ys with
    | none =>
      cases ys with
      | nil => cases hymem
      | cons _ _ => exact absurd hb (by simp [greatest?])
    | some b =>
      have hbmem := mem_of_greatest? hb
      obtain ⟨x, hxmem, hxb⟩ := hyx b hbmem
      -- each is not below a bound of the other
      have hba := not_lt_trans (hy b hbmem) (hy y hymem) (not_greatest?_lt hb y hymem) hya
      have hab := not_lt_trans (hx a hamem) (hx x hxmem) (not_greatest?_lt ha x hxmem) hxb
      rw [Linear.eq_of_not_lt a b (hx a hamem) (hy b hbmem) hab hba]

end Confidence

/-! ### Joining edges -/

theorem pairwise_sortedSet {α : Type} [Ord α] [Std.TransOrd α] (xs : List α) :
    (sortedSet xs).Pairwise fun a b => compare a b = .lt :=
  Std.ExtTreeSet.ordered_toList

theorem sortedSet_congr {α : Type} [Ord α] [Std.TransOrd α] [Std.LawfulEqOrd α] [DecidableEq α]
    {xs ys : List α} (h : ∀ a, a ∈ xs ↔ a ∈ ys) : sortedSet xs = sortedSet ys := by
  have hset : Std.ExtTreeSet.ofList xs compare = Std.ExtTreeSet.ofList ys compare := by
    refine Std.ExtTreeSet.ext_mem fun a => ?_
    simp only [Std.ExtTreeSet.mem_ofList, contains_iff_mem, h a]
  rw [sortedSet, sortedSet, hset]

namespace Edge

variable {κ : Type} [Confidence κ]

theorem foldl_merge_ends (es : List (Edge κ)) (e : Edge κ) :
    (es.foldl merge e).id = e.id ∧ (es.foldl merge e).source = e.source ∧
      (es.foldl merge e).target = e.target ∧ (es.foldl merge e).kind = e.kind := by
  induction es generalizing e with
  | nil => exact ⟨rfl, rfl, rfl, rfl⟩
  | cons e' es ih => exact ih (e.merge e')

theorem foldl_merge_confidence (es : List (Edge κ)) (e : Edge κ) :
    (es.foldl merge e).confidence = (es.map (·.confidence)).foldl Confidence.max e.confidence := by
  induction es generalizing e with
  | nil => rfl
  | cons e' es ih => exact ih (e.merge e')

theorem mem_evidence_foldl_merge {es : List (Edge κ)} {e : Edge κ} {v : Evidence} :
    v ∈ (es.foldl merge e).evidence ↔ ∃ e' ∈ e :: es, v ∈ e'.evidence := by
  induction es generalizing e with
  | nil => simp
  | cons e' es ih =>
    rw [foldl_cons, ih]
    simp only [mem_cons, exists_eq_or_imp, merge, mem_sortedSet, mem_append, or_assoc]

def join : List (Edge κ) → Option (Edge κ)
  | [] => none
  | first :: others => some (others.foldl merge first).settle

def ends (e : Edge κ) : EdgeId × NodeId × NodeId × EdgeKind := (e.id, e.source, e.target, e.kind)

/-- **What edges make together** depends on the ends of the first, the greatest confidence and the
evidence that any of them has. -/
theorem join_congr {es es' : List (Edge κ)} (hends : es.head?.map ends = es'.head?.map ends)
    (hconfidence : Confidence.greatest? (es.map (·.confidence)) =
      Confidence.greatest? (es'.map (·.confidence)))
    (hevidence : ∀ v, (∃ e ∈ es, v ∈ e.evidence) ↔ ∃ e ∈ es', v ∈ e.evidence) :
    join es = join es' := by
  cases es with
  | nil =>
    cases es' with
    | nil => rfl
    | cons first' others' => cases hends
  | cons first others =>
    cases es' with
    | nil => cases hends
    | cons first' others' =>
      obtain ⟨hid, hsource, htarget, hkind⟩ := foldl_merge_ends others first
      obtain ⟨hid', hsource', htarget', hkind'⟩ := foldl_merge_ends others' first'
      simp only [head?_cons, Option.map_some, ends, Option.some.injEq, Prod.mk.injEq] at hends
      rw [map_cons, map_cons, Confidence.greatest?, Confidence.greatest?,
        ← foldl_merge_confidence, ← foldl_merge_confidence, Option.some.injEq] at hconfidence
      have hset : sortedSet (others.foldl merge first).evidence =
          sortedSet (others'.foldl merge first').evidence := by
        refine sortedSet_congr fun v => ?_
        rw [mem_evidence_foldl_merge, mem_evidence_foldl_merge, hevidence v]
      rw [join, join, Option.some.injEq, settle, settle, mk.injEq, hset, hconfidence, hid,
        hid', hsource, hsource', htarget, htarget', hkind, hkind']
      exact ⟨hends.1, hends.2.1, hends.2.2.1, hends.2.2.2, rfl, rfl⟩

section

variable {es : List (Edge κ)} {e : Edge κ}

theorem ends_of_join (h : join es = some e) : es.head?.map ends = some e.ends := by
  cases es with
  | nil => exact absurd h (by simp [join])
  | cons first others =>
    cases h
    obtain ⟨hid, hsource, htarget, hkind⟩ := foldl_merge_ends others first
    simp [ends, settle, hid, hsource, htarget, hkind]

theorem greatest?_of_join (h : join es = some e) :
    Confidence.greatest? (es.map (·.confidence)) = some e.confidence := by
  cases es with
  | nil => exact absurd h (by simp [join])
  | cons first others =>
    cases h
    exact congrArg some (foldl_merge_confidence others first).symm

theorem mem_evidence_of_join (h : join es = some e) {v : Evidence} :
    v ∈ e.evidence ↔ ∃ d ∈ es, v ∈ d.evidence := by
  cases es with
  | nil => exact absurd h (by simp [join])
  | cons first others =>
    cases h
    show v ∈ sortedSet _ ↔ _
    rw [mem_sortedSet, mem_evidence_foldl_merge]

end

theorem settle_of_join {es : List (Edge κ)} {e : Edge κ} (h : join es = some e) : e.settle = e := by
  cases es with
  | nil => exact absurd h (by simp [join])
  | cons first others =>
    cases h
    rw [settle, settle, sortedSet_congr fun _ => mem_sortedSet]

theorem join_eq_of_parts {es : List (Edge κ)} {e : Edge κ} (hne : es ≠ [])
    (hsettle : e.settle = e) (hends : ∀ d ∈ es, d.ends = e.ends)
    (hconfidence : ∀ d ∈ es, d.confidence = e.confidence)
    (hevidence : ∀ v, (∃ d ∈ es, v ∈ d.evidence) ↔ v ∈ e.evidence) : join es = some e := by
  have halone : join [e] = some e := by
    rw [join, foldl_nil, hsettle]
  refine Eq.trans (join_congr ?_ ?_ fun v => ?_) halone
  · cases es with
    | nil => exact absurd rfl hne
    | cons d es => rw [head?_cons, head?_cons, Option.map_some, Option.map_some,
        hends d mem_cons_self]
  · refine Confidence.greatest?_of_forall_eq (fun x hx => ?_) (by simpa using hne)
    obtain ⟨d, hd, rfl⟩ := mem_map.mp hx
    exact hconfidence d hd
  · rw [hevidence v]
    simp

end Edge

end AppAtlas
