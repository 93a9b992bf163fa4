import Mathlib.Algebra.Order.Ring.Rat
import Notely.Engine.Preprocess

/-! # Normalizing keeps the words

`normalize` drops the segments without words, clamps the times, writes the words of a segment with single
spaces, and sorts by the start, stably.

* `Speaks`, `cleaned`: the segments kept, and what one of them becomes.
* `Normal`: what the segments made are, and which segments they come from.
* `normalize_normal`, `normalize_normalize`: `normalize` makes them, and changes nothing the second time. -/

namespace Notely.Engine.Normalizing

open Notely.Lib.Strings Notely.Engine.Domain Notely.Engine.Preprocess

/-! ### Words -/

/-- `split_whitespace`. -/
def words (s : Text) : List Text := (s.splitOnP whiteSpace).filter fun w => ! w.isEmpty

theorem collapseWhitespace_eq (s : Text) : collapseWhitespace s = [' '].intercalate (words s) := rfl

section Words
variable {s w : Text} {ws : List Text}

theorem word_of_mem (h : w ∈ words s) : w ≠ [] ∧ ∀ c ∈ w, whiteSpace c = false := by
  obtain ⟨hw, hne⟩ := List.mem_filter.mp h
  exact ⟨by simpa using hne, sep_false_of_mem_splitOnP hw⟩

/-- **Words written with single spaces are read back.** -/
theorem words_intercalate (h : ∀ w ∈ ws, w ≠ [] ∧ ∀ c ∈ w, whiteSpace c = false) :
    words ([' '].intercalate ws) = ws := by
  induction ws with
  | nil => simp [words]
  | cons w ws ih =>
    obtain ⟨hne, hw⟩ := h w List.mem_cons_self
    have hrest := ih fun v hv => h v (List.mem_cons_of_mem _ hv)
    cases ws with
    | nil => simp [words, List.splitOnP_eq_singleton hw, hne]
    | cons v ws =>
      have hspace : whiteSpace ' ' = true := by decide
      have hjoin : [' '].intercalate (w :: v :: ws) = w ++ ' ' :: [' '].intercalate (v :: ws) := by
        simp
      rw [hjoin, words, List.splitOnP_append_cons_of_forall_mem hw _ hspace,
        List.filter_cons_of_pos (by simpa using hne), ← words, hrest]

theorem words_collapseWhitespace (s : Text) : words (collapseWhitespace s) = words s :=
  words_intercalate fun _ => word_of_mem

/-- A text has words if it has anything beside white space. -/
theorem words_eq_nil_iff : words s = [] ↔ ∀ c ∈ s, whiteSpace c = true := by
  induction s with
  | nil => simp [words]
  | cons c s ih =>
    rw [words, List.splitOnP_cons_eq_if_modifyHead]
    by_cases hc : whiteSpace c
    · rw [if_pos hc, List.filter_cons_of_neg (by simp), ← words, ih, List.forall_mem_cons]
      exact (and_iff_right hc).symm
    · cases hs : s.splitOnP whiteSpace with
      | nil => exact absurd hs (List.splitOnP_ne_nil _ _)
      | cons v vs => simp [hc]

theorem collapseWhitespace_eq_nil_iff : collapseWhitespace s = [] ↔ words s = [] := by
  constructor
  · intro h
    rw [← words_collapseWhitespace, h]
    simp [words]
  · intro h
    rw [collapseWhitespace_eq, h]
    rfl

end Words

/-! ### One segment -/

/-- `<=` on `f64`: false if one is NaN. -/
def le : F64 → F64 → Prop
  | .num x, .num y => x ≤ y
  | _, _ => False

instance : DecidableRel le
  | .num x, .num y => inferInstanceAs (Decidable (x ≤ y))
  | .nan, _ => isFalse fun h => h
  | .num _, .nan => isFalse fun h => h

/-- The segment has something beside white space. -/
def Speaks (seg : TranscriptSegment) : Prop := ∃ c ∈ seg.text, whiteSpace c = false

instance (seg : TranscriptSegment) : Decidable (Speaks seg) :=
  inferInstanceAs (Decidable (∃ c ∈ seg.text, whiteSpace c = false))

/-- The start of a segment, clamped. -/
def clampedStart (seg : TranscriptSegment) : F64 := F64.max seg.start (.num 0)

/-- What a segment kept becomes. -/
def cleaned (seg : TranscriptSegment) : TranscriptSegment :=
  { seg with
    start := clampedStart seg
    «end» := F64.max seg.end (clampedStart seg)
    text := collapseWhitespace seg.text }

section Segment
variable (seg : TranscriptSegment)

theorem speaks_iff : Speaks seg ↔ words seg.text ≠ [] := by
  rw [Ne, words_eq_nil_iff, Speaks]
  simp

/-- `max` of a number is a number, and not smaller. -/
theorem max_num (x : F64) (y : ℚ) : ∃ z, F64.max x (.num y) = .num z ∧ y ≤ z := by
  cases x with
  | nan => exact ⟨y, rfl, le_rfl⟩
  | num x =>
    by_cases h : x ≤ y
    · exact ⟨y, by simp [F64.max, h], le_rfl⟩
    · exact ⟨x, by simp [F64.max, h], (not_le.mp h).le⟩

/-- What is not smaller is left as it is. -/
theorem max_of_le {x y : F64} (h : le y x) : F64.max x y = x := by
  cases x <;> cases y
  · exact absurd h id
  · exact absurd h id
  · exact absurd h id
  · next x y =>
    have hyx : y ≤ x := h
    by_cases hxy : x ≤ y
    · simp [F64.max, le_antisymm hxy hyx]
    · simp [F64.max, hxy]

/-- **Times are clamped to numbers in order.** -/
theorem times_cleaned : le (.num 0) (cleaned seg).start ∧ le (cleaned seg).start (cleaned seg).end := by
  obtain ⟨x, hx, hx0⟩ := max_num seg.start 0
  obtain ⟨y, hy, hxy⟩ := max_num seg.end x
  simp only [cleaned, clampedStart, hx, hy]
  exact ⟨hx0, hxy⟩

/-- A segment is kept, cleaned, exactly if it has something beside white space. -/
theorem normalizeSegment_eq : normalizeSegment seg = if Speaks seg then some (cleaned seg) else none := by
  have h : collapseWhitespace seg.text = [] ↔ ¬ Speaks seg := by
    rw [collapseWhitespace_eq_nil_iff, speaks_iff, not_not]
  unfold normalizeSegment
  simp only [h]
  split_ifs <;> rfl

theorem speaks_cleaned : Speaks (cleaned seg) ↔ Speaks seg := by
  rw [speaks_iff, speaks_iff, cleaned, words_collapseWhitespace]

/-- **Cleaning twice is cleaning once.** -/
theorem cleaned_cleaned : cleaned (cleaned seg) = cleaned seg := by
  obtain ⟨h0, hle⟩ := times_cleaned seg
  have hstart : clampedStart (cleaned seg) = (cleaned seg).start := max_of_le h0
  have hend : F64.max (cleaned seg).end (cleaned seg).start = (cleaned seg).end := max_of_le hle
  have htext : collapseWhitespace (cleaned seg).text = (cleaned seg).text := by
    rw [collapseWhitespace_eq, cleaned, words_collapseWhitespace, ← collapseWhitespace_eq]
  rw [cleaned, hstart, hend, htext]

end Segment

/-! ### All segments -/

/-- A segment made keeps who speaks, in which language, how certain it is, and the words. -/
structure Keeps (seg made : TranscriptSegment) : Prop where
  speakerId : made.speakerId = seg.speakerId
  language : made.language = seg.language
  confidence : made.confidence = seg.confidence
  words : words made.text = words seg.text
  start : made.start = clampedStart seg

/-- **The segments made of `raw`**: in order of their starts, with times in order, with words written with single
spaces; made one by one of the segments that speak, in an order that is the old one where the clamped starts
are equal. -/
structure Normal (raw made : List TranscriptSegment) : Prop where
  ordered : made.Pairwise fun a b => le a.start b.start
  times : ∀ seg ∈ made, le (.num 0) seg.start ∧ le seg.start seg.end
  texts : ∀ seg ∈ made, Speaks seg ∧ seg.text = [' '].intercalate (words seg.text)
  kept : ∃ kept : List TranscriptSegment, kept.Perm (raw.filter fun seg => Speaks seg) ∧ List.Forall₂ Keeps kept made ∧
    ∀ t, kept.filter (fun seg => clampedStart seg = t) =
      (raw.filter fun seg => Speaks seg).filter fun seg => clampedStart seg = t

/-- Sorting by the clamped start. -/
def sortKept (segs : List TranscriptSegment) : List TranscriptSegment :=
  segs.insertionSort fun a b => F64.notGreater (clampedStart a) (clampedStart b)

section Sorting
variable (segs : List TranscriptSegment)

theorem notGreater_iff_le (a b : TranscriptSegment) :
    F64.notGreater (clampedStart a) (clampedStart b) ↔ le (clampedStart a) (clampedStart b) := by
  obtain ⟨x, hx, -⟩ := max_num a.start 0
  obtain ⟨y, hy, -⟩ := max_num b.start 0
  rw [clampedStart, clampedStart, hx, hy]
  rfl

/-- The clamped start as a number. -/
def startValue (seg : TranscriptSegment) : ℚ :=
  match clampedStart seg with
  | .num x => x
  | .nan => 0

theorem clampedStart_eq (seg : TranscriptSegment) : clampedStart seg = .num (startValue seg) := by
  obtain ⟨x, hx, -⟩ := max_num seg.start 0
  rw [startValue, clampedStart, hx]

theorem pairwise_sortKept : (sortKept segs).Pairwise fun a b => le (clampedStart a) (clampedStart b) := by
  have hmap := List.map_insertionSort (fun a b => F64.notGreater (clampedStart a) (clampedStart b))
    (fun x y : ℚ => x ≤ y) startValue segs fun a _ b _ => by
      rw [clampedStart_eq a, clampedStart_eq b]
      rfl
  have hsorted := List.pairwise_insertionSort (fun x y : ℚ => x ≤ y) (segs.map startValue)
  rw [← hmap, List.pairwise_map] at hsorted
  refine hsorted.imp fun {a b} hab => ?_
  rw [clampedStart_eq a, clampedStart_eq b]
  exact hab

/-- **Segments of equal clamped start keep their order.** -/
theorem filter_sortKept (t : F64) :
    (sortKept segs).filter (fun seg => clampedStart seg = t) = segs.filter fun seg => clampedStart seg = t := by
  have hperm : (sortKept segs).Perm segs := List.perm_insertionSort _ segs
  have hequal : (segs.filter fun seg => clampedStart seg = t).Pairwise fun a b =>
      F64.notGreater (clampedStart a) (clampedStart b) := by
    refine List.pairwise_of_forall_mem_list fun a ha b hb => ?_
    rw [List.mem_filter, decide_eq_true_eq] at ha hb
    rw [ha.2, ← hb.2, clampedStart_eq b]
    exact le_refl (startValue b)
  have hsub := (List.sublist_insertionSort hequal List.filter_sublist).filter fun seg => clampedStart seg = t
  rw [List.filter_filter] at hsub
  simp only [Bool.and_self] at hsub
  exact (hsub.eq_of_length (hperm.filter _).length_eq.symm).symm

end Sorting

/-- **`normalize` cleans the segments that speak, sorted by their clamped start.** -/
theorem normalize_segments (raw : Transcript) :
    (normalize raw).segments = (sortKept (raw.segments.filter fun seg => Speaks seg)).map cleaned := by
  have hfilter : raw.segments.filterMap normalizeSegment =
      (raw.segments.filter fun seg => Speaks seg).map cleaned := by
    induction raw.segments with
    | nil => rfl
    | cons seg segs ih =>
      by_cases h : Speaks seg
      · rw [List.filterMap_cons, normalizeSegment_eq, if_pos h, ih, List.filter_cons_of_pos (by simpa using h),
          List.map_cons]
      · rw [List.filterMap_cons, normalizeSegment_eq, if_neg h, ih, List.filter_cons_of_neg (by simpa using h)]
  rw [Preprocess.normalize, hfilter, sortKept]
  exact (List.map_insertionSort _ _ cleaned _ fun _ _ _ _ => Iff.rfl).symm

theorem normalize_normal (raw : Transcript) : Normal raw.segments (normalize raw).segments := by
  rw [normalize_segments]
  refine ⟨?_, ?_, ?_, sortKept (raw.segments.filter fun seg => Speaks seg), List.perm_insertionSort _ _, ?_,
    fun t => filter_sortKept _ t⟩
  · exact List.pairwise_map.mpr (pairwise_sortKept _)
  · intro made hmade
    obtain ⟨seg, -, rfl⟩ := List.mem_map.mp hmade
    exact times_cleaned seg
  · intro made hmade
    obtain ⟨seg, hseg, rfl⟩ := List.mem_map.mp hmade
    have hspeaks : Speaks seg := by
      have := (List.mem_insertionSort _).mp hseg
      simpa using (List.mem_filter.mp this).2
    refine ⟨(speaks_cleaned seg).mpr hspeaks, ?_⟩
    rw [cleaned, words_collapseWhitespace]
    rfl
  · refine List.forall₂_map_right_iff.mpr (List.forall₂_same.mpr fun seg _ => ?_)
    exact ⟨rfl, rfl, rfl, words_collapseWhitespace seg.text, rfl⟩

/-- **Normalizing twice is normalizing once.** -/
theorem normalize_normalize (raw : Transcript) : normalize (normalize raw) = normalize raw := by
  have hnormal := normalize_normal raw
  have hfixed : ∀ seg ∈ (normalize raw).segments, Speaks seg ∧ cleaned seg = seg := by
    intro made hmade
    refine ⟨(hnormal.texts made hmade).1, ?_⟩
    rw [normalize_segments] at hmade
    obtain ⟨seg, -, rfl⟩ := List.mem_map.mp hmade
    exact cleaned_cleaned seg
  have hfilter : (normalize raw).segments.filter (fun seg => Speaks seg) = (normalize raw).segments :=
    List.filter_eq_self.mpr fun seg hseg => by simpa using (hfixed seg hseg).1
  have hsorted : sortKept (normalize raw).segments = (normalize raw).segments := by
    refine List.Pairwise.insertionSort_eq (hnormal.ordered.imp_of_mem fun {a b} ha hb hab => ?_)
    have hstart {seg : TranscriptSegment} (hseg : seg ∈ (normalize raw).segments) :
        clampedStart seg = seg.start := congrArg TranscriptSegment.start (hfixed seg hseg).2
    rw [notGreater_iff_le, hstart ha, hstart hb]
    exact hab
  have hmap : (normalize raw).segments.map cleaned = (normalize raw).segments := by
    rw [List.map_congr_left (g := id) fun seg hseg => (hfixed seg hseg).2, List.map_id]
  have hsegments : (normalize (normalize raw)).segments = (normalize raw).segments := by
    rw [normalize_segments, hfilter, hsorted, hmap]
  exact congrArg Transcript.mk hsegments

/-- **Normalizing keeps the words**, and twice is once. -/
theorem normalize_keeps_words (raw : Transcript) :
    Normal raw.segments (normalize raw).segments ∧ normalize (normalize raw) = normalize raw :=
  ⟨normalize_normal raw, normalize_normalize raw⟩

end Notely.Engine.Normalizing
