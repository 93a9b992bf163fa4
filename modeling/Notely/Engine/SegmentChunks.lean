import Notely.Engine.Preprocess
import Notely.Lib.Greedy

/-! # The chunks of a transcript, exactly

`chunk_segments` first scans the segments for the ranges of its chunks, then builds a chunk of each range,
and last gives every chunk the end of the text before it and the beginning of the text after it.

* `rangesFrom_eq`: the ranges are those of a greedy grouping of the segments.
* `encode_tail`, `encode_head`: the contexts are slices of bytes, at the boundaries of characters.
* `Chunks`: what the chunks of a list of segments are.
* `chunkSegments_chunks`: `chunk_segments` makes them. -/

namespace Notely.Engine.SegmentChunks

open Notely.Lib.Strings Notely.Lib.Utf8 Notely.Lib.Greedy Notely.Engine.Domain Notely.Engine.Preprocess

/-! ### Ranges -/

/-- **The scan finds the ranges of the greedy groups.** -/
theorem rangesFrom_eq (maxChars start : ℕ) (cur segs : List TranscriptSegment) (h : cur ≠ [] ∨ segs ≠ []) :
    rangesFrom maxChars (start + cur.length) start (total segLen cur) segs =
      ranges start (groups segLen maxChars cur segs) := by
  induction segs generalizing start cur with
  | nil =>
    have hcur : cur ≠ [] := h.resolve_right (by simp)
    rw [rangesFrom, groups, if_neg hcur, ranges, ranges]
  | cons seg segs ih =>
    have hopen : start + cur.length ≠ start ↔ cur ≠ [] := by
      rw [← List.length_pos_iff]
      omega
    rw [rangesFrom, groups]
    simp only [hopen]
    split_ifs with hb
    · rw [ranges]
      congr 1
      have hnext := ih (start + cur.length) [seg] (Or.inl (by simp))
      rwa [List.length_singleton, total_singleton] at hnext
    · have hnext := ih start (cur ++ [seg]) (Or.inl (by simp))
      rwa [List.length_append, List.length_singleton, total_append, total_singleton, ← Nat.add_assoc] at hnext

/-! ### Contexts -/

/-- `char_indices`: the characters, each with the byte it starts at. -/
def charIndices (byte : ℕ) : Text → List (ℕ × Char)
  | [] => []
  | c :: cs => (byte, c) :: charIndices (byte + (encodeChar c).length) cs

/-- The byte at which `tail` slices. -/
def tailStart (s : Text) (n : ℕ) : ℕ :=
  if s.length ≤ n then 0 else ((((charIndices 0 s).reverse.take n).getLast?).map Prod.fst).getD 0

/-- The byte at which `head` slices. -/
def headEnd (s : Text) (n : ℕ) : ℕ := ((charIndices 0 s)[n]?.map Prod.fst).getD (encode s).length

section Contexts
variable (s t : Text) (n : ℕ)

theorem getElem?_charIndices (byte k : ℕ) :
    (charIndices byte s)[k]? = s[k]?.map fun c => (byte + (encode (s.take k)).length, c) := by
  induction s generalizing byte k with
  | nil => simp [charIndices]
  | cons c s ih =>
    cases k with
    | zero => simp [charIndices]
    | succ k => simp [charIndices, ih, Nat.add_assoc]

@[simp] theorem length_charIndices (byte : ℕ) : (charIndices byte s).length = s.length := by
  induction s generalizing byte with
  | nil => rfl
  | cons c s ih => rw [charIndices, List.length_cons, ih, List.length_cons]

/-- Bytes are dropped as whole characters. -/
theorem drop_encode (k : ℕ) : (encode s).drop (encode (s.take k)).length = encode (s.drop k) := by
  conv_lhs => rw [← List.take_append_drop k s, encode_append]
  rw [List.take_append_drop, List.drop_left]

theorem take_encode (k : ℕ) : (encode s).take (encode (s.take k)).length = encode (s.take k) := by
  conv_lhs => rw [← List.take_append_drop k s, encode_append]
  rw [List.take_append_drop, List.take_left]

/-- **The slice of `tail` cuts no character.** -/
theorem encode_tail : encode (tail s n) = (encode s).drop (tailStart s n) := by
  unfold tail tailStart
  by_cases hlen : s.length ≤ n
  · rw [if_pos (Or.inl hlen), if_pos hlen, List.drop_zero]
  · rw [if_neg hlen]
    by_cases hn : n = 0
    · subst hn
      simp
    · have hlast : ((charIndices 0 s).reverse.take n).getLast? = (charIndices 0 s)[s.length - n]? := by
        rw [List.take_reverse, List.getLast?_reverse, List.head?_drop, length_charIndices]
      rw [if_neg (by omega), hlast, getElem?_charIndices, List.getElem?_eq_getElem (by omega)]
      simp only [Option.map_some, Option.getD_some, Nat.zero_add]
      rw [drop_encode]

/-- **The slice of `head` cuts no character.** -/
theorem encode_head : encode (head s n) = (encode s).take (headEnd s n) := by
  unfold head headEnd
  rw [getElem?_charIndices]
  by_cases hlen : n < s.length
  · rw [List.getElem?_eq_getElem hlen]
    simp only [Option.map_some, Option.getD_some, Nat.zero_add]
    rw [take_encode]
  · rw [List.getElem?_eq_none (not_lt.mp hlen), List.take_of_length_le (not_lt.mp hlen)]
    simp

/-- The last characters of a text, as many as there are up to `n`, sliced at a boundary of characters. -/
structure Ends (s : Text) (n : ℕ) (t : Text) : Prop where
  suffix : t <:+ s
  length : t.length = min n s.length
  slice : encode t = (encode s).drop (tailStart s n)

/-- The first characters of a text, as many as there are up to `n`, sliced at a boundary of characters. -/
structure Begins (s : Text) (n : ℕ) (t : Text) : Prop where
  prefixed : t <+: s
  length : t.length = min n s.length
  slice : encode t = (encode s).take (headEnd s n)

variable {n} (hn : 0 < n)
include hn

theorem ends_tail : Ends s n (tail s n) := by
  refine ⟨?_, ?_, encode_tail s n⟩
  · unfold tail
    split_ifs
    · exact List.suffix_rfl
    · exact List.drop_suffix _ _
  · unfold tail
    split_ifs with h
    · omega
    · rw [List.length_drop]
      omega

omit hn in
theorem begins_head : Begins s n (head s n) :=
  ⟨List.take_prefix _ _, List.length_take, encode_head s n⟩

end Contexts

/-! ### Chunks -/

/-- **The chunks of a list of segments**: numbered; of ranges that are not empty, follow one another and cover the
list; with the segments of the range and their text; greedy for the budget; and with the end of the text before
and the beginning of the text after as contexts. -/
structure Chunks (segments : List TranscriptSegment) (config : ChunkingConfig) (chunks : List Chunk) : Prop where
  numbered : ∀ i c, chunks[i]? = some c → c.index = i ∧ c.id = "chunk-".toList ++ Nat.toDigits 10 i
  nonempty : ∀ c ∈ chunks, c.segmentStart < c.segmentEnd
  first : ∀ c, chunks[0]? = some c → c.segmentStart = 0
  contiguous : ∀ i c c', chunks[i]? = some c → chunks[i + 1]? = some c' → c'.segmentStart = c.segmentEnd
  last : (chunks.getLast?.map Chunk.segmentEnd).getD 0 = segments.length
  slices : ∀ c ∈ chunks, c.segments = (segments.take c.segmentEnd).drop c.segmentStart
  texts : ∀ c ∈ chunks, c.text = segmentsToText c.segments
  within : ∀ c ∈ chunks, 2 ≤ c.segments.length → total segLen c.segments ≤ max config.maxChars 1
  maximal : ∀ c ∈ chunks, ∀ seg, segments[c.segmentEnd]? = some seg →
    max config.maxChars 1 < total segLen c.segments + segLen seg
  noContext : config.contextChars = 0 → ∀ c ∈ chunks, c.precedingContext = none ∧ c.followingContext = none
  opening : ∀ c, chunks[0]? = some c → c.precedingContext = none
  closing : ∀ i c, chunks[i]? = some c → chunks[i + 1]? = none → c.followingContext = none
  neighbors : 0 < config.contextChars → ∀ i c c', chunks[i]? = some c → chunks[i + 1]? = some c' →
    (∃ t, c'.precedingContext = some t ∧ Ends c.text config.contextChars t) ∧
      ∃ t, c.followingContext = some t ∧ Begins c'.text config.contextChars t

/-- The chunk of the group `i`, before its contexts are attached. -/
def groupChunk (gs : List (List TranscriptSegment)) (i : ℕ) (g : List TranscriptSegment) : Chunk :=
  { id := "chunk-".toList ++ Nat.toDigits 10 i
    index := i
    segmentStart := startOf gs i
    segmentEnd := startOf gs i + g.length
    start := (g.head?.map (·.start)).getD (.num 0)
    «end» := (g.getLast?.map (·.end)).getD (.num 0)
    text := segmentsToText g
    segments := g }

section Groups
variable {segments : List TranscriptSegment} {config : ChunkingConfig}
  {gs : List (List TranscriptSegment)} {g : List TranscriptSegment} {i : ℕ}

theorem toChunk_group (hflat : gs.flatten = segments) (hg : gs[i]? = some g) :
    toChunk segments i (startOf gs i, startOf gs i + g.length) = groupChunk gs i g := by
  have hslice := slice_eq hg
  rw [hflat] at hslice
  unfold toChunk groupChunk
  rw [hslice]

/-- What the first two passes make. -/
theorem getElem?_built (hflat : gs.flatten = segments) (i : ℕ) :
    ((ranges 0 gs).mapIdx (toChunk segments))[i]? = gs[i]?.map (groupChunk gs i) := by
  rw [List.getElem?_mapIdx, getElem?_ranges]
  cases hg : gs[i]? with
  | none => rfl
  | some g => simp only [Option.map_some, Nat.zero_add, toChunk_group hflat hg]

/-- **The chunks are those of the greedy groups, with their contexts.** -/
theorem getElem?_chunkSegments (hne : segments ≠ [])
    (hgs : gs = groups segLen (max config.maxChars 1) [] segments) (i : ℕ) :
    (chunkSegments segments config)[i]? = gs[i]?.map fun g =>
      if config.contextChars = 0 then groupChunk gs i g
      else attachContext (gs.map segmentsToText) config.contextChars i (groupChunk gs i g) := by
  have hflat : gs.flatten = segments := hgs ▸ (groups_grouped segLen _ segments).flatten
  have hranges := rangesFrom_eq (max config.maxChars 1) 0 [] segments (Or.inr hne)
  rw [List.length_nil, Nat.add_zero, total_nil, ← hgs] at hranges
  have htexts : ((ranges 0 gs).mapIdx (toChunk segments)).map Chunk.text = gs.map segmentsToText := by
    refine List.ext_getElem? fun j => ?_
    rw [List.getElem?_map, getElem?_built hflat, Option.map_map, List.getElem?_map]
    rfl
  rw [chunkSegments, if_neg hne, hranges]
  split_ifs with hctx
  · rw [getElem?_built hflat]
  · rw [List.getElem?_mapIdx, htexts, getElem?_built hflat, Option.map_map]
    rfl

/-- A chunk is that of a group, but for its contexts. -/
theorem exists_group (hne : segments ≠ []) (hgs : gs = groups segLen (max config.maxChars 1) [] segments)
    {c : Chunk} (hc : (chunkSegments segments config)[i]? = some c) :
    ∃ g, gs[i]? = some g ∧ c.index = i ∧ c.id = "chunk-".toList ++ Nat.toDigits 10 i ∧
      c.segmentStart = startOf gs i ∧ c.segmentEnd = startOf gs i + g.length ∧ c.segments = g ∧
      c.text = segmentsToText g := by
  rw [getElem?_chunkSegments hne hgs, Option.map_eq_some_iff] at hc
  obtain ⟨g, hg, rfl⟩ := hc
  refine ⟨g, hg, ?_⟩
  split_ifs <;> exact ⟨rfl, rfl, rfl, rfl, rfl, rfl⟩

theorem length_chunkSegments (hne : segments ≠ [])
    (hgs : gs = groups segLen (max config.maxChars 1) [] segments) :
    (chunkSegments segments config).length = gs.length := by
  refine Nat.le_antisymm ?_ ?_ <;> rw [← List.getElem?_eq_none_iff]
  · rw [getElem?_chunkSegments hne hgs, List.getElem?_eq_none le_rfl, Option.map_none]
  · have h := getElem?_chunkSegments hne hgs (chunkSegments segments config).length
    rwa [List.getElem?_eq_none le_rfl, eq_comm, Option.map_eq_none_iff] at h

end Groups

section Contexts
variable {segments : List TranscriptSegment} {config : ChunkingConfig} {i : ℕ} {c c' : Chunk}

/-- Without room for a context there is none. -/
theorem noContext_of_zero (h0 : config.contextChars = 0) (hne : segments ≠ [])
    (hc : (chunkSegments segments config)[i]? = some c) :
    c.precedingContext = none ∧ c.followingContext = none := by
  rw [getElem?_chunkSegments hne rfl, Option.map_eq_some_iff] at hc
  obtain ⟨g, -, rfl⟩ := hc
  rw [if_pos h0]
  exact ⟨rfl, rfl⟩

/-- The contexts of two neighbors. -/
theorem neighbors_of_pos (hpos : 0 < config.contextChars) (hne : segments ≠ [])
    (hc : (chunkSegments segments config)[i]? = some c)
    (hc' : (chunkSegments segments config)[i + 1]? = some c') :
    c'.precedingContext = some (tail c.text config.contextChars) ∧
      c.followingContext = some (head c'.text config.contextChars) := by
  obtain ⟨g, hg, -, -, -, -, -, htext⟩ := exists_group hne rfl hc
  obtain ⟨g', hg', -, -, -, -, -, htext'⟩ := exists_group hne rfl hc'
  rw [getElem?_chunkSegments hne rfl, hg, Option.map_some, Option.some.injEq, if_neg hpos.ne'] at hc
  rw [getElem?_chunkSegments hne rfl, hg', Option.map_some, Option.some.injEq, if_neg hpos.ne'] at hc'
  constructor
  · rw [htext, ← hc', attachContext]
    simp [hg]
  · rw [htext', ← hc, attachContext]
    simp [hg']

theorem opening_of_first (hne : segments ≠ []) (hc : (chunkSegments segments config)[0]? = some c) :
    c.precedingContext = none := by
  rw [getElem?_chunkSegments hne rfl, Option.map_eq_some_iff] at hc
  obtain ⟨g, -, rfl⟩ := hc
  split_ifs <;> rfl

theorem closing_of_last (hne : segments ≠ []) (hc : (chunkSegments segments config)[i]? = some c)
    (hlast : (chunkSegments segments config)[i + 1]? = none) : c.followingContext = none := by
  rw [getElem?_chunkSegments hne rfl, Option.map_eq_some_iff] at hc
  rw [getElem?_chunkSegments hne rfl, Option.map_eq_none_iff] at hlast
  obtain ⟨g, -, rfl⟩ := hc
  split_ifs
  · rfl
  · simp [attachContext, hlast]

end Contexts

/-- The groups that the chunks are made of. -/
theorem exists_groups (segments : List TranscriptSegment) (config : ChunkingConfig) :
    ∃ gs, gs = groups segLen (max config.maxChars 1) [] segments ∧
      Grouped segLen (max config.maxChars 1) segments gs :=
  ⟨_, rfl, groups_grouped segLen _ segments⟩

section Parts
variable {segments : List TranscriptSegment} {config : ChunkingConfig} {i : ℕ} {c c' : Chunk}
  (hne : segments ≠ [])
include hne

/-- A chunk has a segment. -/
theorem start_lt_end (hc : (chunkSegments segments config)[i]? = some c) : c.segmentStart < c.segmentEnd := by
  obtain ⟨gs, hgs, hgreedy⟩ := exists_groups segments config
  obtain ⟨g, hg, -, -, hstart, hend, -⟩ := exists_group hne hgs hc
  have hpos : 0 < g.length := List.length_pos_iff.mpr fun hnil =>
    hgreedy.nonempty (hnil ▸ List.mem_of_getElem? hg)
  omega

/-- A chunk starts where the one before ends. -/
theorem start_of_next (hc : (chunkSegments segments config)[i]? = some c)
    (hc' : (chunkSegments segments config)[i + 1]? = some c') : c'.segmentStart = c.segmentEnd := by
  obtain ⟨g, hg, -, -, -, hend, -⟩ := exists_group hne rfl hc
  obtain ⟨g', -, -, -, hstart, -⟩ := exists_group hne rfl hc'
  rw [hend, hstart, startOf_succ hg]

/-- The last chunk ends with the list. -/
theorem end_of_last :
    ((chunkSegments segments config).getLast?.map Chunk.segmentEnd).getD 0 = segments.length := by
  obtain ⟨gs, hgs, hgreedy⟩ := exists_groups segments config
  have hpos : 0 < gs.length := by
    refine List.length_pos_iff.mpr fun hnil => hne ?_
    rw [← hgreedy.flatten, hnil, List.flatten_nil]
  have hlen := length_chunkSegments hne hgs
  have hlast : (chunkSegments segments config)[gs.length - 1]? = (chunkSegments segments config).getLast? := by
    rw [List.getLast?_eq_getElem?, hlen]
  obtain ⟨c, hc⟩ : ∃ c, (chunkSegments segments config)[gs.length - 1]? = some c :=
    ⟨_, List.getElem?_eq_getElem (by omega)⟩
  obtain ⟨g, hg, -, -, -, hend, -⟩ := exists_group hne hgs hc
  rw [← hlast, hc, Option.map_some, Option.getD_some, hend, ← startOf_succ hg, Nat.sub_add_cancel hpos,
    startOf_length, hgreedy.flatten]

/-- A chunk has the segments of its range. -/
theorem segments_of_range (hc : (chunkSegments segments config)[i]? = some c) :
    c.segments = (segments.take c.segmentEnd).drop c.segmentStart := by
  obtain ⟨gs, hgs, hgreedy⟩ := exists_groups segments config
  obtain ⟨g, hg, -, -, hstart, hend, hsegments, -⟩ := exists_group hne hgs hc
  have hslice := slice_eq hg
  rwa [hgreedy.flatten, ← hend, ← hstart, ← hsegments, eq_comm] at hslice

/-- A chunk of several segments is within the budget. -/
theorem within_of_two (hc : (chunkSegments segments config)[i]? = some c) (hlen : 2 ≤ c.segments.length) :
    total segLen c.segments ≤ max config.maxChars 1 := by
  obtain ⟨gs, hgs, hgreedy⟩ := exists_groups segments config
  obtain ⟨g, hg, -, -, -, -, hsegments, -⟩ := exists_group hne hgs hc
  rw [hsegments] at hlen ⊢
  exact hgreedy.within g (List.mem_of_getElem? hg) hlen

/-- With the segment after it, a chunk is beyond the budget. -/
theorem beyond_of_next (hc : (chunkSegments segments config)[i]? = some c) {seg : TranscriptSegment}
    (hseg : segments[c.segmentEnd]? = some seg) : max config.maxChars 1 < total segLen c.segments + segLen seg := by
  obtain ⟨gs, hgs, hgreedy⟩ := exists_groups segments config
  obtain ⟨g, hg, -, -, -, hend, hsegments, -⟩ := exists_group hne hgs hc
  rw [hend, ← hgreedy.flatten] at hseg
  obtain ⟨g', hg', hhead⟩ := getElem?_after hg hgreedy.nonempty hseg
  rw [hsegments]
  exact hgreedy.next hg hg' hhead

end Parts

/-- **The chunks of a list of segments are what `Chunks` tells.** -/
theorem chunkSegments_chunks (segments : List TranscriptSegment) (config : ChunkingConfig) :
    Chunks segments config (chunkSegments segments config) := by
  by_cases hne : segments = []
  · subst hne
    constructor <;> simp [chunkSegments]
  have hof {c : Chunk} (hc : c ∈ chunkSegments segments config) :
      ∃ i : ℕ, (chunkSegments segments config)[i]? = some c := List.mem_iff_getElem?.mp hc
  refine ⟨?_, ?_, ?_, ?_, ?_, ?_, ?_, ?_, ?_, ?_, ?_, ?_, ?_⟩
  · intro i c hc
    obtain ⟨g, -, hindex, hid, -⟩ := exists_group hne rfl hc
    exact ⟨hindex, hid⟩
  · intro c hc
    obtain ⟨i, hi⟩ := hof hc
    exact start_lt_end hne hi
  · intro c hc
    obtain ⟨g, -, -, -, hstart, -⟩ := exists_group hne rfl hc
    rw [hstart, startOf_zero]
  · exact fun i c c' hc hc' => start_of_next hne hc hc'
  · exact end_of_last hne
  · intro c hc
    obtain ⟨i, hi⟩ := hof hc
    exact segments_of_range hne hi
  · intro c hc
    obtain ⟨i, hi⟩ := hof hc
    obtain ⟨g, -, -, -, -, -, hsegments, htext⟩ := exists_group hne rfl hi
    rw [htext, hsegments]
  · intro c hc hlen
    obtain ⟨i, hi⟩ := hof hc
    exact within_of_two hne hi hlen
  · intro c hc seg hseg
    obtain ⟨i, hi⟩ := hof hc
    exact beyond_of_next hne hi hseg
  · intro h0 c hc
    obtain ⟨i, hi⟩ := hof hc
    exact noContext_of_zero h0 hne hi
  · exact fun c hc => opening_of_first hne hc
  · exact fun i c hc hlast => closing_of_last hne hc hlast
  · intro hctx i c c' hc hc'
    obtain ⟨hpre, hfol⟩ := neighbors_of_pos hctx hne hc hc'
    exact ⟨⟨_, hpre, ends_tail _ hctx⟩, ⟨_, hfol, begins_head _⟩⟩

end Notely.Engine.SegmentChunks
