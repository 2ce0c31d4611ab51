/-! # First occurrences

Many lists here keep only the first entry for each key. `distinctOn` is that list.
-/

namespace AppAtlas

/-- The entries of a list whose key no earlier entry has. -/
def distinctOn {α β : Type} [DecidableEq β] (key : α → β) : List α → List α
  | [] => []
  | a :: as => a :: (distinctOn key as).filter fun b => key b ≠ key a

/-- The entries of a list without repetitions, each at its first place. -/
def distinct {α : Type} [DecidableEq α] (as : List α) : List α :=
  distinctOn id as

theorem mem_of_mem_distinctOn {α β : Type} [DecidableEq β] {key : α → β} {a : α} {as : List α}
    (h : a ∈ distinctOn key as) : a ∈ as := by
  induction as with
  | nil => simp [distinctOn] at h
  | cons b bs ih =>
    simp only [distinctOn, List.mem_cons, List.mem_filter] at h ⊢
    exact h.imp id fun h => ih h.1

theorem pairwise_distinctOn {α β : Type} [DecidableEq β] (key : α → β) (as : List α) :
    (distinctOn key as).Pairwise fun a b => key a ≠ key b := by
  induction as with
  | nil => exact List.Pairwise.nil
  | cons a as ih =>
    refine List.pairwise_cons.mpr ⟨fun b hb => ?_, ih.filter _⟩
    have hne := (List.mem_filter.mp hb).2
    exact fun heq => absurd heq.symm (by simpa using hne)

theorem distinctOn_of_pairwise {α β : Type} [DecidableEq β] {key : α → β} {as : List α}
    (h : as.Pairwise fun a b => key a ≠ key b) : distinctOn key as = as := by
  induction as with
  | nil => rfl
  | cons a as ih =>
    obtain ⟨ha, has⟩ := List.pairwise_cons.mp h
    rw [distinctOn, ih has, List.filter_eq_self.mpr fun b hb => ?_]
    simpa using (ha b hb).symm

theorem find?_distinctOn {α β : Type} [DecidableEq β] (key : α → β) (as : List α) (k : β) :
    (distinctOn key as).find? (key · == k) = as.find? (key · == k) := by
  induction as with
  | nil => rfl
  | cons a as ih =>
    by_cases hk : key a = k
    · rw [distinctOn, List.find?_cons_of_pos (by simp [hk]), List.find?_cons_of_pos (by simp [hk])]
    · rw [distinctOn, List.find?_cons_of_neg (by simp [hk]), List.find?_cons_of_neg (by simp [hk]),
        ← ih, List.find?_filter]
      congr 1
      funext b
      by_cases hb : key b = k
      · simp [hb, Ne.symm hk]
      · simp [hb]

theorem exists_mem_distinctOn {α β : Type} [DecidableEq β] (key : α → β) {a : α} {as : List α}
    (ha : a ∈ as) : ∃ b ∈ distinctOn key as, key b = key a := by
  cases hfind : as.find? (key · == key a) with
  | none => exact absurd (List.find?_eq_none.mp hfind a ha) (by simp)
  | some b =>
    have hb := List.find?_some hfind
    rw [← find?_distinctOn] at hfind
    exact ⟨b, List.mem_of_find?_eq_some hfind, by simpa using hb⟩

/-- An entry stays whose key no other entry has. -/
theorem mem_distinctOn {α β : Type} [DecidableEq β] {key : α → β} {a : α} {as : List α}
    (ha : a ∈ as) (hkey : ∀ b ∈ as, key b = key a → b = a) : a ∈ distinctOn key as := by
  obtain ⟨b, hb, hba⟩ := exists_mem_distinctOn key ha
  obtain rfl := hkey b (mem_of_mem_distinctOn hb) hba
  exact hb

end AppAtlas
