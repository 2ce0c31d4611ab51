import AppAtlas.Proofs.Text.Cuts
import AppAtlas.Route
import Mathlib.Data.List.DropRight
import Mathlib.Data.List.Flatten

/-!
# Normal forms of routes

A route is trimmed before its query is dropped, so white space in front of a query stays at the end
of the normal form, as it does in front of a slash at the end.  A second normalisation trims it.
That is all that a second one can do: segments put together are the segments that are found again,
and the first one leaves no query.

* `ofSegments_segments_sublist`: a path made of a text's segments adds nothing but its first slash.
* `endsBlank`: the last segment of a route ends in white space.
* `normalize_idempotent_iff`: normal forms are their own exactly for the other routes.
-/

namespace AppAtlas.Route

open List Text

variable {cs : List Char} {ss : List (List Char)}

/-! ### Segments -/

theorem ofSegments_eq_flatMap (h : ss ≠ []) : ofSegments ss = ss.flatMap ('/' :: ·) := by
  obtain ⟨s, ss, rfl⟩ := exists_cons_of_ne_nil h
  rw [ofSegments, joinWith_cons]
  rfl

theorem ofSegments_concat (ss : List (List Char)) (s : List Char) :
    ofSegments (ss ++ [s]) = ss.flatMap ('/' :: ·) ++ '/' :: s := by
  rw [ofSegments_eq_flatMap (by simp), flatMap_append, flatMap_singleton]

def Filled (ss : List (List Char)) : Prop :=
  ∀ s ∈ ss, s ≠ [] ∧ '/' ∉ s

theorem filled_segments (cs : List Char) : Filled (segments cs) := by
  intro s hs
  obtain ⟨hsegment, hfilled⟩ := mem_filter.mp hs
  exact ⟨by simpa using hfilled, not_mem_of_mem_segments hsegment⟩

theorem segments_flatMap (h : Filled ss) : segments (ss.flatMap ('/' :: ·)) = ss := by
  induction ss using reverseRecOn with
  | nil => rfl
  | append_singleton ss s ih =>
    obtain ⟨hs, hslash⟩ := h s (by simp)
    rw [flatMap_append, flatMap_singleton]
    refine (filledSegments_concat _ hslash hs).trans ?_
    exact congrArg (· ++ [s]) (ih fun t ht => h t (mem_append_left _ ht))

theorem segments_ofSegments (h : Filled ss) : segments (ofSegments ss) = ss := by
  cases ss with
  | nil => rfl
  | cons s ss => rw [ofSegments_eq_flatMap (by simp), segments_flatMap h]

theorem segments_slash (cs : List Char) : segments ('/' :: cs) = segments cs := by
  rw [segments, filledSegments, segments_cons_self, filter_cons_of_neg (by simp)]
  rfl

theorem flatMap_segments (cs : List Char) :
    (Text.segments (· == '/') cs).flatMap ('/' :: ·) = '/' :: cs := by
  induction cs with
  | nil => rfl
  | cons c cs ih =>
    obtain ⟨s, ss, hcs⟩ := exists_cons_of_ne_nil (segments_ne_nil (· == '/') cs)
    rw [hcs, flatMap_cons, cons_append, cons.injEq] at ih
    by_cases hc : c = '/'
    · rw [hc, segments_cons_self, hcs, flatMap_cons, flatMap_cons, ← ih.2]
      rfl
    · rw [segments_cons_of_ne hc hcs, flatMap_cons, ← ih.2]
      rfl

theorem ofSegments_segments_sublist (cs : List Char) : ofSegments (segments cs) <+ '/' :: cs := by
  by_cases h : segments cs = []
  · rw [h]
    exact (nil_sublist cs).cons_cons '/'
  · rw [ofSegments_eq_flatMap h, ← flatMap_segments cs]
    exact filter_sublist.flatMap ('/' :: ·)

/-! ### White space at the end -/

def endsBlank (cs : List Char) : Bool :=
  ((segments (withoutQuery (trim cs))).getLast?.bind getLast?).any isBlank

theorem any_getLast?_ofSegments (ss : List (List Char)) :
    (ofSegments ss).getLast?.any isBlank = (ss.getLast?.bind getLast?).any isBlank := by
  rcases eq_nil_or_concat ss with rfl | ⟨ss, s, rfl⟩
  · rfl
  · rw [concat_eq_append, ofSegments_concat, getLast?_append, getLast?_cons, getLast?_concat]
    cases hs : s.getLast? <;> simp [hs, show isBlank '/' = false by decide]

theorem trim_slash (cs : List Char) : trim ('/' :: cs) = ('/' :: cs).rdropWhile isBlank := by
  rw [trim, trimWhere, dropWhile_cons_of_neg (by decide)]
  rfl

theorem trim_slash_eq_self_iff :
    trim ('/' :: cs) = '/' :: cs ↔ ('/' :: cs).getLast?.any isBlank = false := by
  rw [trim_slash, rdropWhile_eq_self_iff]
  simp [getLast?_eq_some_getLast]

theorem exists_trim_slash (cs : List Char) :
    ∃ rest, trim ('/' :: cs) = '/' :: rest ∧ '/' :: rest <+: '/' :: cs := by
  have hprefix := rdropWhile_prefix isBlank (l := '/' :: cs)
  rw [← trim_slash] at hprefix
  cases htrim : trim ('/' :: cs) with
  | nil =>
    rw [trim_slash, rdropWhile_eq_nil_iff] at htrim
    exact absurd (htrim '/' mem_cons_self) (by decide)
  | cons c rest =>
    rw [htrim] at hprefix
    obtain rfl : c = '/' := (cons_prefix_cons.mp hprefix).1
    exact ⟨rest, rfl, hprefix⟩

/-! ### Normalising twice -/

theorem withoutQuery_eq_self {path : List Char} (h : path ⊆ normalizeChars cs) :
    withoutQuery path = path := by
  refine takeWhile_eq_self_iff.mpr fun c hc => ?_
  rcases mem_cons.mp ((ofSegments_segments_sublist _).subset (h hc)) with rfl | hpath
  · rfl
  · have hkept := mem_takeWhile_imp hpath
    exact hkept

theorem normalizeChars_eq_self_iff (cs : List Char) :
    normalizeChars (normalizeChars cs) = normalizeChars cs ↔
      trim (normalizeChars cs) = normalizeChars cs := by
  obtain ⟨rest, htrim, hprefix⟩ : ∃ rest, trim (normalizeChars cs) = '/' :: rest ∧
    '/' :: rest <+: normalizeChars cs := exists_trim_slash _
  have htwice : normalizeChars (normalizeChars cs) =
      ofSegments (segments (trim (normalizeChars cs))) := by
    rw [normalizeChars, withoutQuery_eq_self (htrim ▸ hprefix.subset)]
  rw [htwice]
  constructor
  · -- what is trimmed is not put back
    intro h
    rw [htrim, segments_slash] at h
    rw [htrim]
    refine hprefix.eq_of_length_le ?_
    rw [← h]
    exact (ofSegments_segments_sublist rest).length_le
  · intro h
    rw [h]
    exact congrArg ofSegments (segments_ofSegments (filled_segments _))

/-- **A normal form is its own normal form exactly if it does not end in white space**, that is, if
the last segment of the route does not.  Then the route and its normal form have one stem and one
tail. -/
theorem normalize_idempotent_iff (route : String) :
    (normalize (normalize route) = normalize route ↔ endsBlank route.toList = false) ∧
    (endsBlank route.toList = false →
      stem (normalize route) = stem route ∧ tail (normalize route) = tail route) := by
  have hiff : normalizeChars (normalizeChars route.toList) = normalizeChars route.toList ↔
      endsBlank route.toList = false := by
    rw [normalizeChars_eq_self_iff, endsBlank, ← any_getLast?_ofSegments]
    exact trim_slash_eq_self_iff
  refine ⟨?_, fun h => ?_⟩
  · rw [← hiff, normalize, normalize, onString, onString, String.toList_ofList, String.ofList_inj]
  · have hstem : stemChars (normalizeChars route.toList) = stemChars route.toList := by
      rw [stemChars, hiff.mpr h, stemChars]
    constructor
    · rw [stem, stem, normalize, onString, toList_onString, hstem, onString]
    · rw [tail, tail, normalize, onString, toList_onString, tailChars, hstem, onString, tailChars]

theorem paged_list_normalized_once : endsBlank " user//list.do?page=1".toList = false ∧
    stem (normalize " user//list.do?page=1") = stem " user//list.do?page=1" ∧
      tail (normalize " user//list.do?page=1") = tail " user//list.do?page=1" :=
  ⟨by decide, (normalize_idempotent_iff " user//list.do?page=1").2 (by decide)⟩

/-- White space in front of a query. -/
theorem spaced_query_normalized_apart :
    normalize (normalize "/a ?x") ≠ normalize "/a ?x" ∧ stem (normalize "/a ?x") ≠ stem "/a ?x" ∧
      tail (normalize "/a ?x") ≠ tail "/a ?x" := by
  decide

end AppAtlas.Route
