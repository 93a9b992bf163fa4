import Notely.Engine.Chunker
import Notely.Lib.Greedy

/-! # The passages of a note, exactly

`chunk_markdown` scans a note line by line, with a budget carried along. What it makes is told without the
scan: the note's paragraphs, the runs of lines that are not blank, are grouped greedily, and a passage
spans the lines of its group.

* `chunkFrom_eq`: the scan is the greedy grouping of the paragraphs.
* `Passages`: what the passages of a text are, line by line.
* `chunkMarkdown_passages`: the scan makes them. -/

namespace Notely.Engine.NoteChunks

open Notely.Lib.Strings Notely.Lib.Utf8 Notely.Lib.Greedy Notely.Engine.Chunker

/-! ### Paragraphs -/

/-- The paragraphs of some lines: the runs of them between blank ones. -/
def paragraphs (ls : List Numbered) : List (List Numbered) := (ls.splitOnP blank).filter (! ·.isEmpty)

theorem paraChars_eq_sum (para : List Numbered) :
    paraChars para = (para.map fun l => (encode l.2).length + 1).sum := by
  have h (n : ℕ) : para.foldl (fun n l => n + ((encode l.2).length + 1)) n =
      n + (para.map fun l => (encode l.2).length + 1).sum := by
    induction para generalizing n with
    | nil => simp
    | cons l para ih => rw [List.foldl_cons, ih, List.map_cons, List.sum_cons, Nat.add_assoc]
  rw [paraChars, h, Nat.zero_add]

@[simp] theorem paraChars_nil : paraChars [] = 0 := rfl

@[simp] theorem paraChars_append (p q : List Numbered) : paraChars (p ++ q) = paraChars p + paraChars q := by
  simp [paraChars_eq_sum]

theorem paraChars_pos {p : List Numbered} (h : p ≠ []) : 0 < paraChars p := by
  obtain ⟨l, p', rfl⟩ := List.exists_cons_of_ne_nil h
  rw [paraChars_eq_sum, List.map_cons, List.sum_cons]
  omega

theorem total_paraChars (g : List (List Numbered)) : total paraChars g = paraChars g.flatten := by
  induction g with
  | nil => rfl
  | cons p g ih => rw [List.flatten_cons, paraChars_append, ← ih, total, List.map_cons, List.sum_cons, total]

@[simp] theorem paragraphs_nil : paragraphs [] = [] := by simp [paragraphs]

/-- A blank line opens no paragraph. -/
theorem paragraphs_blank {l : Numbered} (h : blank l) (ls : List Numbered) :
    paragraphs (l :: ls) = paragraphs ls := by
  rw [paragraphs, List.splitOnP_cons_eq_if_modifyHead, if_pos h, List.filter_cons_of_neg (by simp), paragraphs]

/-- A run of lines up to a blank one, or up to the end, is a paragraph. -/
theorem paragraphs_run {para rest : List Numbered} (hne : para ≠ []) (hp : ∀ l ∈ para, blank l = false)
    (hrest : ∀ b ∈ rest.head?, blank b) : paragraphs (para ++ rest) = para :: paragraphs rest := by
  cases rest with
  | nil =>
    rw [List.append_nil, paragraphs_nil, paragraphs, List.splitOnP_eq_singleton hp,
      List.filter_cons_of_pos (by simpa using hne), List.filter_nil]
  | cons b rest =>
    have hb : blank b := hrest b rfl
    rw [paragraphs_blank hb, paragraphs, List.splitOnP_append_cons_of_forall_mem hp b hb,
      List.filter_cons_of_pos (by simpa using hne), paragraphs]

/-- A line that is not blank opens one, up to the next blank line. -/
theorem paragraphs_filled {l : Numbered} (h : ¬ blank l) (ls : List Numbered) :
    paragraphs (l :: ls) = (l :: ls.takeWhile (! blank ·)) :: paragraphs (ls.dropWhile (! blank ·)) := by
  have hsplit : l :: ls = (l :: ls.takeWhile (! blank ·)) ++ ls.dropWhile (! blank ·) := by
    rw [List.cons_append, List.takeWhile_append_dropWhile]
  rw [hsplit, paragraphs_run (by simp)]
  · intro x hx
    rcases List.mem_cons.mp hx with rfl | hx
    · simpa using h
    · simpa using List.mem_takeWhile_imp hx
  · intro b hb
    have := List.head?_dropWhile_not (! blank ·) ls
    rw [hb] at this
    simpa using this

theorem flatten_eq_nil {gathered : List (List Numbered)} (h : [] ∉ gathered) :
    gathered.flatten = [] ↔ gathered = [] := by
  rw [List.flatten_eq_nil_iff]
  refine ⟨fun hall => List.eq_nil_iff_forall_not_mem.mpr fun p hp => h (hall p hp ▸ hp), ?_⟩
  rintro rfl
  simp

/-- **The scan groups the paragraphs greedily.** -/
theorem chunkFrom_eq (budget curChars : ℕ) (cur ls : List Numbered) :
    ∀ gathered, cur = gathered.flatten → curChars = paraChars cur → [] ∉ gathered →
      chunkFrom budget cur curChars ls =
        (groups paraChars budget gathered (paragraphs ls)).map fun g => toChunk g.flatten := by
  fun_induction chunkFrom budget cur curChars ls with
  | case1 cur _ =>
    intro gathered hcur hchars hne
    rw [paragraphs_nil, groups, flush, hcur]
    simp only [flatten_eq_nil hne]
    split_ifs <;> simp
  | case2 cur _ l ls hl ih =>
    intro gathered hcur hchars hne
    rw [paragraphs_blank hl, ih gathered hcur hchars hne]
  | case3 cur _ l ls hl para rest h ih =>
    intro gathered hcur hchars hne
    have hgathered : gathered ≠ [] := by
      rintro rfl
      rw [hchars, hcur] at h
      exact absurd h.1 (by simp)
    have hover : budget < total paraChars gathered + paraChars para := by
      rw [total_paraChars, ← hcur, ← hchars]
      exact h.2
    rw [paragraphs_filled hl, groups, if_pos ⟨hgathered, hover⟩, List.map_cons,
      ih [para] (by simp) rfl (by simp [para]), flush, if_neg, hcur]
    · rfl
    · rw [hcur, flatten_eq_nil hne]
      exact hgathered
  | case4 cur _ l ls hl para rest h ih =>
    intro gathered hcur hchars hne
    have hroom : ¬ (gathered ≠ [] ∧ budget < total paraChars gathered + paraChars para) := by
      rintro ⟨hg, hover⟩
      refine h ⟨?_, by rwa [total_paraChars, ← hcur, ← hchars] at hover⟩
      rw [hchars, hcur]
      exact paraChars_pos fun hnil => hg ((flatten_eq_nil hne).mp hnil)
    rw [paragraphs_filled hl, groups, if_neg hroom]
    exact ih _ (by simp [hcur, para]) (by simp [hchars]) (by simp [hne])

/-! ### Lines -/

/-- The lines of a text that are not blank. -/
def filledLines (text : Text) : List Numbered := (numberedLines text).filter (! blank ·)

/-- The line `i` is there, and not blank. -/
def Filled (text : Text) (i : ℕ) : Prop := ∃ l ∈ filledLines text, l.1 = i

/-- The line `i` is in the range of the passage. -/
def Spans (c : Chunk) (i : ℕ) : Prop := c.startLine ≤ i ∧ i ≤ c.endLine

instance (c : Chunk) (i : ℕ) : Decidable (Spans c i) := inferInstanceAs (Decidable (_ ∧ _))

/-- The lines of a passage's range that are not blank. -/
def linesIn (text : Text) (c : Chunk) : List Numbered := (filledLines text).filter fun l => Spans c l.1

/-- The passage has all lines of a paragraph. -/
def Has (c : Chunk) (p : List Numbered) : Prop := ∀ l ∈ p, Spans c l.1

/-- **The passages of a text**, for a budget: their ranges follow one another and start and end with lines that
are not blank; every such line is in one of them; their texts are those lines; no paragraph is cut; several
paragraphs together are within the budget, and with the paragraph after it a passage is not. -/
structure Passages (text : Text) (budget : ℕ) (chunks : List Chunk) : Prop where
  ordered : chunks.Pairwise fun c c' => c.endLine < c'.startLine
  ranged : ∀ c ∈ chunks, c.startLine ≤ c.endLine
  ends : ∀ c ∈ chunks, Filled text c.startLine ∧ Filled text c.endLine
  covered : ∀ i, Filled text i → ∃! c, c ∈ chunks ∧ Spans c i
  texts : ∀ c ∈ chunks, c.text = ['\n'].intercalate ((linesIn text c).map Prod.snd)
  whole : ∀ p ∈ paragraphs (numberedLines text), ∃ c ∈ chunks, Has c p
  within : ∀ c ∈ chunks, ∀ p ∈ paragraphs (numberedLines text), ∀ q ∈ paragraphs (numberedLines text),
    p ≠ q → Has c p → Has c q → paraChars (linesIn text c) ≤ budget
  maximal : ∀ i c c', chunks[i]? = some c → chunks[i + 1]? = some c' →
    ∃ p ∈ paragraphs (numberedLines text), p.head?.map Prod.fst = some c'.startLine ∧
      budget < paraChars (linesIn text c) + paraChars p

/-- The lines of the paragraphs are those that are not blank. -/
theorem flatten_paragraphs (ls : List Numbered) : (paragraphs ls).flatten = ls.filter (! blank ·) := by
  rw [paragraphs, List.flatten_filter_not_isEmpty]
  induction ls with
  | nil => simp
  | cons l ls ih =>
    rw [List.splitOnP_cons_eq_if_modifyHead, List.filter_cons, ← ih]
    by_cases hl : blank l
    · simp [hl]
    · cases hs : ls.splitOnP blank with
      | nil => exact absurd hs (List.splitOnP_ne_nil _ _)
      | cons p ps => simp [hl]

theorem increasing_filledLines (text : Text) : (filledLines text).Pairwise fun l l' => l.1 < l'.1 := by
  have h := List.pairwise_lt_range (n := (text.splitOn '\n').length)
  rw [← numberedLines_fst, List.pairwise_map] at h
  exact h.filter _

/-! ### Blocks of lines -/

section Blocks
variable {text : Text} {blocks : List (List Numbered)} {G : List Numbered} {l : Numbered}

theorem toChunk_ends {first last : Numbered} (hf : G.head? = some first) (hl : G.getLast? = some last) :
    (toChunk G).startLine = first.1 ∧ (toChunk G).endLine = last.1 := by
  simp [toChunk, hf, hl]

/-- The ends of a block, which is not empty. -/
theorem exists_ends (h : G ≠ []) : ∃ first ∈ G, ∃ last ∈ G, G.head? = some first ∧ G.getLast? = some last :=
  ⟨G.head h, List.head_mem h, G.getLast h, List.getLast_mem h, List.head?_eq_some_head h,
    List.getLast?_eq_some_getLast h⟩

/-- The range of a block's passage spans its lines. -/
theorem spans_toChunk (h : G.Pairwise fun l l' => l.1 < l'.1) (hl : l ∈ G) : Spans (toChunk G) l.1 := by
  obtain ⟨first, -, last, -, hf, hlast⟩ := exists_ends (List.ne_nil_of_mem hl)
  obtain ⟨hstart, hend⟩ := toChunk_ends hf hlast
  obtain ⟨hge, hle⟩ := between_of_mem h hl
  exact ⟨hstart ▸ hge first hf, hend ▸ hle last hlast⟩

variable (hflat : blocks.flatten = filledLines text) (hne : [] ∉ blocks)
include hflat

theorem increasing_block (hG : G ∈ blocks) : G.Pairwise fun l l' => l.1 < l'.1 := by
  have h := increasing_filledLines text
  rw [← hflat] at h
  exact (List.pairwise_flatten.mp h).1 G hG

include hne

/-- The lines of a block's passage are its own. -/
theorem linesIn_toChunk (hG : G ∈ blocks) : linesIn text (toChunk G) = G := by
  obtain ⟨first, -, last, -, hf, hl⟩ := exists_ends fun h => hne (h ▸ hG)
  obtain ⟨hstart, hend⟩ := toChunk_ends hf hl
  obtain ⟨L, R, rfl⟩ := List.append_of_mem hG
  have hinc := increasing_filledLines text
  rw [← hflat, List.flatten_append, List.flatten_cons, ← List.append_assoc] at hinc
  rw [linesIn, ← hflat, List.flatten_append, List.flatten_cons, ← List.append_assoc]
  simp only [Spans, hstart, hend]
  exact filter_between hinc hf hl

theorem ordered_blocks : (blocks.map toChunk).Pairwise fun c c' => c.endLine < c'.startLine := by
  have h := increasing_filledLines text
  rw [← hflat] at h
  refine List.pairwise_map.mpr ((List.pairwise_flatten.mp h).2.imp_of_mem ?_)
  intro G G' hG hG' hlt
  obtain ⟨first, -, last, hlast, hf, hl⟩ := exists_ends fun h => hne (h ▸ hG)
  obtain ⟨first', hfirst', last', -, hf', hl'⟩ := exists_ends fun h => hne (h ▸ hG')
  rw [(toChunk_ends hf hl).2, (toChunk_ends hf' hl').1]
  exact hlt last hlast first' hfirst'

/-- A line that is not blank is in the range of its block's passage, and of no other. -/
theorem mem_of_spans (hG : G ∈ blocks) (hl : l ∈ filledLines text) (hs : Spans (toChunk G) l.1) : l ∈ G := by
  rw [← linesIn_toChunk hflat hne hG]
  exact List.mem_filter.mpr ⟨hl, by simpa using hs⟩

theorem covered_blocks {i : ℕ} (hi : Filled text i) : ∃! c, c ∈ blocks.map toChunk ∧ Spans c i := by
  obtain ⟨l, hl, rfl⟩ := hi
  obtain ⟨G, hG, hlG⟩ := List.mem_flatten.mp (hflat ▸ hl)
  refine ⟨toChunk G, ⟨List.mem_map_of_mem hG, spans_toChunk (increasing_block hflat hG) hlG⟩, ?_⟩
  rintro c ⟨hc, hspan⟩
  obtain ⟨G', hG', rfl⟩ := List.mem_map.mp hc
  have hlG' := mem_of_spans hflat hne hG' hl hspan
  have hinc := increasing_filledLines text
  rw [← hflat] at hinc
  rw [eq_of_shared hinc hG' hG hlG' hlG]

end Blocks

/-! ### The passages of a note -/

section Groups
variable {text : Text} {budget : ℕ} {gs : List (List (List Numbered))} {g : List (List Numbered)}
  {p q : List Numbered} (h : Grouped paraChars budget (paragraphs (numberedLines text)) gs)

theorem nil_notMem_paragraphs (ls : List Numbered) : [] ∉ paragraphs ls := by simp [paragraphs]

include h

/-- The lines of the groups are blocks of the lines that are not blank. -/
theorem flatten_blocks : (gs.map List.flatten).flatten = filledLines text := by
  rw [← List.flatten_flatten, h.flatten, flatten_paragraphs, filledLines]

theorem nil_notMem_blocks : [] ∉ gs.map List.flatten := by
  intro hnil
  obtain ⟨g, hg, hgnil⟩ := List.mem_map.mp hnil
  have hempty : [] ∉ g := fun hp =>
    nil_notMem_paragraphs (numberedLines text) (h.flatten ▸ List.mem_flatten.mpr ⟨g, hg, hp⟩)
  exact h.nonempty ((flatten_eq_nil hempty).mp hgnil ▸ hg)

/-- A passage that has all lines of a paragraph is that of its group. -/
theorem mem_of_has (hg : g ∈ gs) (hp : p ∈ paragraphs (numberedLines text)) (hhas : Has (toChunk g.flatten) p) :
    p ∈ g := by
  obtain ⟨l, hl⟩ := List.exists_mem_of_ne_nil p fun hnil => nil_notMem_paragraphs _ (hnil ▸ hp)
  have hfilled : l ∈ filledLines text := by
    rw [filledLines, ← flatten_paragraphs]
    exact List.mem_flatten.mpr ⟨p, hp, hl⟩
  have hlg : l ∈ g.flatten := mem_of_spans (flatten_blocks h) (nil_notMem_blocks h)
    (List.mem_map_of_mem hg) hfilled (hhas l hl)
  obtain ⟨q, hq, hlq⟩ := List.mem_flatten.mp hlg
  have hinc := increasing_filledLines text
  rw [filledLines, ← flatten_paragraphs] at hinc
  have hqp : q ∈ paragraphs (numberedLines text) := h.flatten ▸ List.mem_flatten.mpr ⟨g, hg, hq⟩
  rwa [eq_of_shared hinc hp hqp hl hlq]

theorem has_toChunk (hg : g ∈ gs) (hp : p ∈ g) : Has (toChunk g.flatten) p := fun _ hl =>
  spans_toChunk (increasing_block (flatten_blocks h) (List.mem_map_of_mem hg))
    (List.mem_flatten.mpr ⟨p, hp, hl⟩)

theorem paraChars_linesIn (hg : g ∈ gs) : paraChars (linesIn text (toChunk g.flatten)) = total paraChars g := by
  rw [linesIn_toChunk (flatten_blocks h) (nil_notMem_blocks h) (List.mem_map_of_mem hg), total_paraChars]

/-- A group has room for its own paragraphs. -/
theorem within_groups (hg : g ∈ gs) (hp : p ∈ g) (hq : q ∈ g) (hpq : p ≠ q) :
    paraChars (linesIn text (toChunk g.flatten)) ≤ budget := by
  rw [paraChars_linesIn h hg]
  refine h.within g hg ?_
  match g, hp, hq with
  | [r], hp, hq => exact absurd ((List.mem_singleton.mp hp).trans (List.mem_singleton.mp hq).symm) hpq
  | _ :: _ :: _, _, _ => simp

/-- A group has no room for the first paragraph of the next. -/
theorem maximal_groups {i : ℕ} {g' : List (List Numbered)} (hg : gs[i]? = some g) (hg' : gs[i + 1]? = some g') :
    ∃ p ∈ paragraphs (numberedLines text), p.head?.map Prod.fst = some (toChunk g'.flatten).startLine ∧
      budget < paraChars (linesIn text (toChunk g.flatten)) + paraChars p := by
  have hmem : g' ∈ gs := List.mem_of_getElem? hg'
  rw [paraChars_linesIn h (List.mem_of_getElem? hg)]
  cases g' with
  | nil => exact absurd hmem h.nonempty
  | cons p g' =>
    have hp : p ∈ paragraphs (numberedLines text) := h.flatten ▸ List.mem_flatten.mpr ⟨_, hmem, by simp⟩
    refine ⟨p, hp, ?_, h.next hg hg' rfl⟩
    cases p with
    | nil => exact absurd hp (nil_notMem_paragraphs _)
    | cons l p => simp [toChunk]

/-- **The passages of greedy groups are the passages of the text.** -/
theorem passages_groups : Passages text budget ((gs.map List.flatten).map toChunk) := by
  have hflat := flatten_blocks h
  have hne := nil_notMem_blocks h
  refine ⟨ordered_blocks hflat hne, ?_, ?_, fun i hi => covered_blocks hflat hne hi, ?_, ?_, ?_, ?_⟩
  · intro c hc
    obtain ⟨G, hG, rfl⟩ := List.mem_map.mp hc
    obtain ⟨first, hfirst, last, -, hf, hl⟩ := exists_ends fun hnil => hne (hnil ▸ hG)
    obtain ⟨hle, hge⟩ := spans_toChunk (increasing_block hflat hG) hfirst
    exact hle.trans hge
  · intro c hc
    obtain ⟨G, hG, rfl⟩ := List.mem_map.mp hc
    obtain ⟨first, hfirst, last, hlast, hf, hl⟩ := exists_ends fun hnil => hne (hnil ▸ hG)
    rw [(toChunk_ends hf hl).1, (toChunk_ends hf hl).2]
    exact ⟨⟨first, hflat ▸ List.mem_flatten.mpr ⟨G, hG, hfirst⟩, rfl⟩,
      ⟨last, hflat ▸ List.mem_flatten.mpr ⟨G, hG, hlast⟩, rfl⟩⟩
  · intro c hc
    obtain ⟨G, hG, rfl⟩ := List.mem_map.mp hc
    rw [linesIn_toChunk hflat hne hG, toChunk]
  · intro p hp
    obtain ⟨g, hg, hpg⟩ := List.mem_flatten.mp (h.flatten ▸ hp)
    exact ⟨toChunk g.flatten, List.mem_map_of_mem (List.mem_map_of_mem hg), has_toChunk h hg hpg⟩
  · intro c hc p hp q hq hpq hcp hcq
    obtain ⟨G, hG, rfl⟩ := List.mem_map.mp hc
    obtain ⟨g, hg, rfl⟩ := List.mem_map.mp hG
    exact within_groups h hg (mem_of_has h hg hp hcp) (mem_of_has h hg hq hcq) hpq
  · intro i c c' hc hc'
    simp only [List.map_map, List.getElem?_map, Option.map_eq_some_iff] at hc hc'
    obtain ⟨g, hg, rfl⟩ := hc
    obtain ⟨g', hg', rfl⟩ := hc'
    exact maximal_groups h hg hg'

end Groups

/-- The scan makes the passages of greedy groups of paragraphs. -/
theorem chunkMarkdown_eq (text : Text) (maxChars : ℕ) : ∃ gs,
    Grouped paraChars (max maxChars 1) (paragraphs (numberedLines text)) gs ∧
      chunkMarkdown text maxChars = (gs.map List.flatten).map toChunk := by
  have hscan := chunkFrom_eq (max maxChars 1) 0 [] (numberedLines text) [] rfl rfl (by simp)
  refine ⟨_, groups_grouped paraChars _ _, ?_⟩
  rw [chunkMarkdown, hscan, List.map_map]
  rfl

/-- **The scan makes the passages of the text.** -/
theorem chunkMarkdown_passages (text : Text) (maxChars : ℕ) :
    Passages text (max maxChars 1) (chunkMarkdown text maxChars) := by
  obtain ⟨gs, hgs, heq⟩ := chunkMarkdown_eq text maxChars
  rw [heq]
  exact passages_groups hgs

end Notely.Engine.NoteChunks
