import Std.Data.ExtTreeMap
import Std.Data.ExtTreeSet

/-!
# Ordered maps

The library keeps its state in ordered maps and asks them two kinds of questions: what stands at a
key, and what stands in the map from the first key to the last.  This file has what the proofs need
to go from one to the other.

* `eq_ofList_iff_perm`: which maps are made of a list of values that have their own keys.
* `getElem?_insert_of`, `getElem?_erase_of`, `getElem?_alter_of`: a change at one key, with keys
  compared by equality.
* `getElem?_insertAll`, `getElem?_insertMany_const`, `getElem?_eraseAll`: many such changes.
-/

namespace AppAtlas.OrderedMap

open List Std

variable {α β γ : Type}

section Values

variable {cmp : α → α → Ordering} [TransCmp cmp]

variable {t : ExtTreeMap α β cmp}

theorem values_impl (t : DTreeMap.Internal.Impl α (fun _ => β)) :
    t.values = (DTreeMap.Internal.Impl.Const.toList t).map Prod.snd := by
  -- both lists are folds from the right, so the induction carries what is gathered so far
  have aux : ∀ vs es, vs = es.map Prod.snd →
      t.foldr (fun _ v l => v :: l) vs = (t.foldr (fun k v l => (k, v) :: l) es).map Prod.snd := by
    induction t with
    | leaf => intro vs es h; exact h
    | inner size k v l r ihl ihr =>
      intro vs es h
      exact ihl _ _ (congrArg (v :: ·) (ihr vs es h))
  exact aux [] [] rfl

theorem values_eq_map_toList (t : ExtTreeMap α β cmp) : t.values = t.toList.map Prod.snd := by
  obtain ⟨⟨t⟩⟩ := t
  induction t using Quotient.ind with
  | _ t => exact values_impl t.inner

@[simp] theorem values_empty : (∅ : ExtTreeMap α β cmp).values = [] := by
  rw [values_eq_map_toList, ExtTreeMap.toList_eq_nil_iff.mpr rfl, map_nil]

theorem values_filterMap (t : ExtTreeMap α β cmp) (f : α → β → Option γ) :
    (t.filterMap f).values = t.toList.filterMap fun e => f e.1 e.2 := by
  rw [values_eq_map_toList, ExtTreeMap.toList_filterMap, map_filterMap]
  congr 1
  funext e
  cases f e.1 e.2 <;> rfl

theorem mem_values [LawfulEqCmp cmp] {b : β} : b ∈ t.values ↔ ∃ k : α, t[k]? = some b := by
  rw [values_eq_map_toList, mem_map]
  constructor
  · rintro ⟨⟨k, v⟩, hkv, rfl⟩
    exact ⟨k, ExtTreeMap.mem_toList_iff_getElem?_eq_some.mp hkv⟩
  · rintro ⟨k, hk⟩
    exact ⟨(k, b), ExtTreeMap.mem_toList_iff_getElem?_eq_some.mpr hk, rfl⟩

/-- **The first value is the one at the least key.** -/
theorem head?_values_eq_some_iff [LawfulEqCmp cmp] {b : β} : t.values.head? = some b ↔
      ∃ k, t[k]? = some b ∧ ∀ k' b', t[k']? = some b' → (cmp k k').isLE := by
  have hord := ExtTreeMap.ordered_keys_toList (t := t)
  have hmem : ∀ k v, (k, v) ∈ t.toList ↔ t[k]? = some v :=
    fun k v => ExtTreeMap.mem_toList_iff_getElem?_eq_some
  rw [values_eq_map_toList, head?_map]
  cases hl : t.toList with
  | nil =>
    simp only [head?_nil, Option.map_none, reduceCtorEq, false_iff]
    rintro ⟨k, hk, -⟩
    have := (hmem k b).mpr hk
    rw [hl] at this
    cases this
  | cons e es =>
    rw [hl] at hord
    have hfirst := (pairwise_cons.mp hord).1
    simp only [head?_cons, Option.map_some, Option.some.injEq]
    constructor
    · rintro rfl
      refine ⟨e.1, (hmem e.1 e.2).mp (by rw [hl]; exact mem_cons_self), fun k' b' hk' => ?_⟩
      have hin := (hmem k' b').mpr hk'
      rw [hl] at hin
      rcases mem_cons.mp hin with heq | hin
      · rw [← heq]
        exact ReflCmp.isLE_rfl
      · rw [hfirst (k', b') hin]
        rfl
    · rintro ⟨k, hk, hleast⟩
      have hin := (hmem k b).mpr hk
      rw [hl] at hin
      rcases mem_cons.mp hin with heq | hin
      · rw [← heq]
      · have hle := hleast e.1 e.2 ((hmem e.1 e.2).mp (by rw [hl]; exact mem_cons_self))
        have hlt := hfirst (k, b) hin
        have hswap : cmp k e.1 = (cmp e.1 k).swap := OrientedCmp.eq_swap
        rw [hswap, hlt] at hle
        cases hle

theorem head?_values_eq_none_iff [LawfulEqCmp cmp] :
    t.values.head? = none ↔ ∀ k : α, t[k]? = none := by
  rw [head?_eq_none_iff]
  constructor
  · intro h k
    cases hk : t[k]? with
    | none => rfl
    | some b =>
      have := mem_values.mpr ⟨k, hk⟩
      rw [h] at this
      cases this
  · intro h
    apply eq_nil_iff_forall_not_mem.mpr
    intro b hb
    obtain ⟨k, hk⟩ := mem_values.mp hb
    rw [h k] at hk
    cases hk

theorem pairwise_values [LawfulEqCmp cmp] {key : β → α} (h : ∀ k b, t[k]? = some b → key b = k) :
    t.values.Pairwise fun a b => cmp (key a) (key b) = .lt := by
  rw [values_eq_map_toList, pairwise_map]
  refine ExtTreeMap.ordered_keys_toList.imp_of_mem ?_
  rintro ⟨k, b⟩ ⟨k', b'⟩ hk hk' hlt
  rw [ExtTreeMap.mem_toList_iff_getElem?_eq_some] at hk hk'
  rw [h k b hk, h k' b' hk']
  exact hlt

theorem nodup_values [LawfulEqCmp cmp] {key : β → α}
    (h : ∀ k b, t[k]? = some b → key b = k) : t.values.Nodup := by
  refine (pairwise_values h).imp ?_
  rintro a b hlt rfl
  have hself : cmp (key a) (key a) = .eq := ReflCmp.compare_self
  rw [hself] at hlt
  cases hlt

end Values

/-! ### Values by their keys -/

theorem nodup_of_pairwise_key {key : β → α} {bs : List β}
    (h : bs.Pairwise fun a b => key a ≠ key b) : bs.Nodup :=
  h.imp fun hne heq => hne (congrArg key heq)

theorem find?_of_pairwise_key [DecidableEq α] {key : β → α} {bs : List β}
    (h : bs.Pairwise fun a b => key a ≠ key b) {b : β} (hb : b ∈ bs) :
    bs.find? (key · == key b) = some b := by
  induction bs with
  | nil => cases hb
  | cons a bs ih =>
    obtain ⟨ha, hbs⟩ := pairwise_cons.mp h
    rcases mem_cons.mp hb with rfl | hb
    · exact find?_cons_of_pos (by simp)
    · rw [find?_cons_of_neg (by simp [ha b hb]), ih hbs hb]

theorem find?_of_perm [DecidableEq α] {key : β → α} {bs bs' : List β} (hperm : bs.Perm bs')
    (h : bs.Pairwise fun a b => key a ≠ key b) (a : α) :
    bs.find? (key · == a) = bs'.find? (key · == a) := by
  have h' : bs'.Pairwise fun a b => key a ≠ key b := (hperm.pairwise_iff fun h => h.symm).mp h
  cases hb : bs.find? (key · == a) with
  | none =>
    rw [find?_eq_none] at hb
    exact (find?_eq_none.mpr fun b hmem => hb b (hperm.mem_iff.mpr hmem)).symm
  | some b =>
    obtain rfl : key b = a := by simpa using find?_some hb
    exact (find?_of_pairwise_key h' (hperm.mem_iff.mp (mem_of_find?_eq_some hb))).symm

section Keys

variable [DecidableEq α] [Ord α] [TransOrd α] [LawfulEqOrd α]

omit [DecidableEq α] in
theorem pairwise_values_ne {t : ExtTreeMap α β compare} {key : β → α}
    (h : ∀ k b, t[k]? = some b → key b = k) : t.values.Pairwise fun a b => key a ≠ key b := by
  refine (pairwise_values h).imp fun {a b} hlt heq => ?_
  rw [heq, compare_self] at hlt
  cases hlt

section

variable {t : ExtTreeMap α β compare} {key : β → α}
  (h : ∀ (k : α) (b : β), t[k]? = some b → key b = k)

include h

/-- **Values that tell their keys are found by them.** -/
theorem find?_values (k : α) : t.values.find? (key · == k) = t[k]? := by
  cases hk : t[k]? with
  | some b =>
    obtain rfl := h k b hk
    exact find?_of_pairwise_key (pairwise_values_ne h) (mem_values.mpr ⟨key b, hk⟩)
  | none =>
    refine find?_eq_none.mpr fun b hb hkey => ?_
    obtain ⟨k', hk'⟩ := mem_values.mp hb
    have hkb : key b = k := by simpa using hkey
    rw [← h k' b hk', hkb, hk] at hk'
    cases hk'

/-- **Values that tell their keys make up the map.** -/
theorem ofList_values : ExtTreeMap.ofList (t.values.map fun b => (key b, b)) compare = t := by
  apply ExtTreeMap.ext_getElem?
  intro k
  cases hk : t[k]? with
  | some b =>
    obtain rfl := h k b hk
    refine ExtTreeMap.getElem?_ofList_of_mem compare_self ?_
      (mem_map.mpr ⟨b, mem_values.mpr ⟨key b, hk⟩, rfl⟩)
    rw [pairwise_map]
    exact (pairwise_values_ne h).imp fun hne => by simpa using hne
  | none =>
    refine ExtTreeMap.getElem?_ofList_of_contains_eq_false ?_
    rw [← Bool.not_eq_true, contains_iff_mem, map_map]
    intro hin
    obtain ⟨b, hb, hkb⟩ := mem_map.mp hin
    obtain ⟨k', hk'⟩ := mem_values.mp hb
    have hkb : key b = k := hkb
    rw [← h k' b hk', hkb, hk] at hk'
    cases hk'

end

omit [DecidableEq α] [LawfulEqOrd α] in
theorem pairwise_mergeSort_key (key : β → α) (bs : List β) :
    (bs.mergeSort fun a b => (compare (key a) (key b)).isLE).Pairwise fun a b =>
      (compare (key a) (key b)).isLE := by
  refine pairwise_mergeSort ?_ ?_ bs
  · intro a b c hab hbc
    exact TransOrd.isLE_trans hab hbc
  · intro a b
    have hswap : compare (key b) (key a) = (compare (key a) (key b)).swap := OrientedCmp.eq_swap
    rw [hswap]
    cases compare (key a) (key b) <;> rfl

/-- **There is one order in which keys grow.** -/
theorem mergeSort_eq_of_perm {key : β → α} {bs bs' : List β} (hperm : bs.Perm bs')
    (h : bs'.Pairwise fun a b => compare (key a) (key b) = .lt) :
    (bs.mergeSort fun a b => (compare (key a) (key b)).isLE) = bs' := by
  have hsorted : (bs.mergeSort fun a b => (compare (key a) (key b)).isLE).Perm bs' :=
    (mergeSort_perm _ _).trans hperm
  refine Perm.eq_of_pairwise (fun a b ha hb hab hba => ?_) (pairwise_mergeSort_key key bs)
    (h.imp fun hlt => by rw [hlt]; rfl) hsorted
  have hkeys : key a = key b :=
    LawfulEqOrd.eq_of_compare (OrientedCmp.isLE_antisymm hab hba)
  have hapart : bs'.Pairwise fun a b => key a ≠ key b := h.imp fun hlt heq => by
    rw [heq, compare_self] at hlt
    cases hlt
  have hfound := find?_of_pairwise_key hapart (hsorted.mem_iff.mp ha)
  rw [hkeys, find?_of_pairwise_key hapart hb] at hfound
  exact (Option.some.inj hfound).symm

/-- **A map is made of its entries.** -/
theorem ofList_toList (t : ExtTreeMap α β compare) : ExtTreeMap.ofList t.toList compare = t := by
  apply ExtTreeMap.ext_getElem?
  intro k
  cases hk : t[k]? with
  | some b =>
    exact ExtTreeMap.getElem?_ofList_of_mem compare_self ExtTreeMap.distinct_keys_toList
      (ExtTreeMap.mem_toList_iff_getElem?_eq_some.mpr hk)
  | none =>
    refine ExtTreeMap.getElem?_ofList_of_contains_eq_false ?_
    rw [← Bool.not_eq_true, contains_iff_mem]
    intro hin
    obtain ⟨⟨k', b⟩, hb, rfl⟩ := mem_map.mp hin
    rw [ExtTreeMap.mem_toList_iff_getElem?_eq_some, hk] at hb
    cases hb

theorem getElem?_ofList_of_keys {key : β → α} {bs : List β}
    (h : bs.Pairwise fun a b => key a ≠ key b) {k : α} {b : β} :
    (ExtTreeMap.ofList (bs.map fun b => (key b, b)) compare)[k]? = some b ↔ b ∈ bs ∧ key b = k := by
  have hapart : (bs.map fun b => (key b, b)).Pairwise fun a b => ¬compare a.1 b.1 = .eq := by
    rw [pairwise_map]
    exact h.imp fun hne => by simpa using hne
  have hmem : ∀ b ∈ bs, (ExtTreeMap.ofList (bs.map fun b => (key b, b)) compare)[key b]? = some b :=
    fun b hb => ExtTreeMap.getElem?_ofList_of_mem compare_self hapart
      (mem_map.mpr ⟨b, hb, rfl⟩)
  constructor
  · intro hb
    by_cases hk : ∃ b' ∈ bs, key b' = k
    · obtain ⟨b', hb', rfl⟩ := hk
      rw [hmem b' hb'] at hb
      cases hb
      exact ⟨hb', rfl⟩
    · rw [ExtTreeMap.getElem?_ofList_of_contains_eq_false] at hb
      · cases hb
      · rw [← Bool.not_eq_true, contains_iff_mem, map_map, mem_map]
        exact hk
  · rintro ⟨hb, rfl⟩
    exact hmem b hb

/-- **A map is that of a list in which keys differ if and only if its values are the list**, in some
order. -/
theorem eq_ofList_iff_perm {t : ExtTreeMap α β compare} {key : β → α} {bs : List β}
    (ht : ∀ (k : α) (b : β), t[k]? = some b → key b = k)
    (h : bs.Pairwise fun a b => key a ≠ key b) :
    t = ExtTreeMap.ofList (bs.map fun b => (key b, b)) compare ↔ t.values.Perm bs := by
  rw [perm_ext_iff_of_nodup (nodup_values ht) (nodup_of_pairwise_key h)]
  constructor
  · rintro rfl b
    simp only [mem_values, getElem?_ofList_of_keys h]
    exact ⟨fun ⟨_, hb, _⟩ => hb, fun hb => ⟨key b, hb, rfl⟩⟩
  · intro hmem
    refine ExtTreeMap.ext_getElem? fun {k} => Option.ext fun b => ?_
    rw [getElem?_ofList_of_keys h, ← hmem b, mem_values]
    constructor
    · exact fun hb => ⟨⟨k, hb⟩, ht k b hb⟩
    · rintro ⟨⟨k', hb⟩, rfl⟩
      rwa [ht k' b hb]

omit [DecidableEq α] in
theorem eq_of_pairwise_key {key : β → α} {bs bs' : List β}
    (h : bs.Pairwise fun a b => compare (key a) (key b) = .lt)
    (h' : bs'.Pairwise fun a b => compare (key a) (key b) = .lt)
    (hmem : ∀ b, b ∈ bs ↔ b ∈ bs') : bs = bs' := by
  have hnodup : ∀ {cs : List β}, (cs.Pairwise fun a b => compare (key a) (key b) = .lt) →
      cs.Nodup := fun hcs => hcs.imp fun hlt heq => by
    rw [heq, compare_self] at hlt
    cases hlt
  refine Perm.eq_of_pairwise (fun a b _ _ hab hba => ?_) h h'
    ((perm_ext_iff_of_nodup (hnodup h) (hnodup h')).mpr hmem)
  exact absurd (hab.symm.trans (OrientedCmp.gt_of_lt hba)) (by decide)

omit [DecidableEq α] in
/-- **A set that has the keys of some values lists these values**, in the order of the keys. -/
theorem filterMap_toList_eq_filter {s : ExtTreeSet α compare} {t : ExtTreeMap α β compare}
    {p : β → Bool} (h : ∀ k, k ∈ s ↔ ∃ b, t[k]? = some b ∧ p b) :
    (s.toList.filterMap fun k => t[k]?) = t.values.filter p := by
  have hmem : ∀ e, e ∈ t.toList.filter (fun e => p e.2) ↔
      t[e.1]? = some e.2 ∧ p e.2 = true := fun e => by
    rw [mem_filter, ExtTreeMap.mem_toList_iff_getElem?_eq_some]
  have hkeys : s.toList = (t.toList.filter fun e => p e.2).map Prod.fst := by
    refine eq_of_pairwise_key ExtTreeSet.ordered_toList
      (pairwise_map.mpr (ExtTreeMap.ordered_keys_toList.filter _)) fun k => ?_
    rw [ExtTreeSet.mem_toList, h, mem_map]
    exact ⟨fun ⟨b, hb⟩ => ⟨(k, b), (hmem (k, b)).mpr hb, rfl⟩,
      fun ⟨e, he, hk⟩ => ⟨e.2, hk ▸ (hmem e).mp he⟩⟩
  have hvalues : ∀ es : List (α × β), (∀ e ∈ es, t[e.1]? = some e.2) →
      ((es.map Prod.fst).filterMap fun k => t[k]?) = es.map Prod.snd := by
    intro es
    induction es with
    | nil => exact fun _ => rfl
    | cons e es ih =>
      intro hes
      rw [map_cons, filterMap_cons_some (hes e mem_cons_self),
        ih fun e' he' => hes e' (mem_cons_of_mem e he'), map_cons]
  rw [hkeys, hvalues _ fun e he => ((hmem e).mp he).1, values_eq_map_toList, filter_map]
  rfl

/-! ### Changes at one key -/

theorem getElem?_insert_of (t : ExtTreeMap α β compare) (k a : α) (v : β) :
    (t.insert k v)[a]? = if k = a then some v else t[a]? := by
  rw [ExtTreeMap.getElem?_insert]
  simp only [Std.compare_eq_iff_eq]

theorem getElem?_erase_of (t : ExtTreeMap α β compare) (k a : α) :
    (t.erase k)[a]? = if k = a then none else t[a]? := by
  rw [ExtTreeMap.getElem?_erase]
  simp only [Std.compare_eq_iff_eq]

section

variable {t : ExtTreeMap α β compare} {P : α → β → Prop} (h : ∀ a v, t[a]? = some v → P a v)

include h

theorem forall_insert {k : α} {v : β} (hk : P k v) :
    ∀ a w, (t.insert k v)[a]? = some w → P a w := by
  intro a w hw
  rw [getElem?_insert_of] at hw
  split at hw
  · next ha =>
    cases hw
    exact ha ▸ hk
  · exact h a w hw

theorem forall_erase (k : α) : ∀ a w, (t.erase k)[a]? = some w → P a w := by
  intro a w hw
  rw [getElem?_erase_of] at hw
  split at hw
  · cases hw
  · exact h a w hw

end

theorem getElem?_alter_of (t : ExtTreeMap α β compare) (k a : α) (f : Option β → Option β) :
    (t.alter k f)[a]? = if k = a then f t[k]? else t[a]? := by
  rw [ExtTreeMap.getElem?_alter]
  simp only [Std.compare_eq_iff_eq]

theorem getElem?_insertAll (t : ExtTreeMap α β compare) (key : β → α) (bs : List β) (a : α) :
    (bs.foldl (fun t b => t.insert (key b) b) t)[a]? =
      (bs.reverse.find? (key · == a)).or t[a]? := by
  induction bs generalizing t with
  | nil => rfl
  | cons b bs ih =>
    rw [foldl_cons, ih, getElem?_insert_of, reverse_cons, find?_append,
      Option.or_assoc]
    by_cases hb : key b = a <;> simp [hb]

theorem getElem?_insertMany_const (t : ExtTreeMap α β compare) (ks : List α) (v : β) (a : α) :
    (t.insertMany (ks.map fun k => (k, v)))[a]? = if a ∈ ks then some v else t[a]? := by
  induction ks generalizing t with
  | nil => rw [map_nil, ExtTreeMap.insertMany_nil, if_neg not_mem_nil]
  | cons k ks ih =>
    rw [map_cons, ExtTreeMap.insertMany_cons, ih, getElem?_insert_of]
    by_cases hk : k = a
    · subst hk
      rw [if_pos rfl, ite_self, if_pos mem_cons_self]
    · simp only [mem_cons, Ne.symm hk, false_or, if_neg hk]

omit [Ord α] [TransOrd α] [LawfulEqOrd α] in
/-- Steps that each change one place, where changing it once more does nothing, change the places
they are taken at. -/
theorem foldl_of_step {σ : Type} {step : σ → α → σ} (at? : σ → α → β) (change : α → β → β)
    (hagain : ∀ a b, change a (change a b) = change a b)
    (hstep : ∀ s k a, at? (step s k) a = if k = a then change k (at? s a) else at? s a)
    (ks : List α) (s : σ) (a : α) :
    at? (ks.foldl step s) a = if a ∈ ks then change a (at? s a) else at? s a := by
  induction ks generalizing s with
  | nil => rw [foldl_nil, if_neg not_mem_nil]
  | cons k ks ih =>
    rw [foldl_cons, ih, hstep]
    by_cases hk : k = a
    · subst hk
      rw [if_pos rfl, if_pos mem_cons_self, hagain, ite_self]
    · simp only [mem_cons, Ne.symm hk, false_or, if_neg hk]

theorem getElem?_eraseAll (t : ExtTreeMap α β compare) (ks : List α) (a : α) :
    (ks.foldl (fun t k => t.erase k) t)[a]? = if a ∈ ks then none else t[a]? :=
  foldl_of_step (fun t a => t[a]?) (fun _ _ => none) (fun _ _ => rfl) getElem?_erase_of ks t a

end Keys

end AppAtlas.OrderedMap
