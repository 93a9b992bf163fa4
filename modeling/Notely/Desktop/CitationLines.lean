import Mathlib.Data.Nat.Find
import Notely.Desktop.Dart
import Notely.Desktop.EditorState
import Notely.Engine.NoteChunks

/-! # Citations: the lines of a passage in the editor

A passage has the numbers of its lines in the file as the engine reads it, split at every `\n`. The editor
opens the file with `\r\n` and `\r` turned into `\n`, and `selectLines` counts the lines of that. The two
counts are of the same lines exactly if no line up to the last one that is not blank has a `\r` inside.

* `lines_textInside`: `selectLines` selects the lines asked for.
* `lines_normalize`: the lines of the editor, line by line of the file.
* `citations_agree_iff`: when every passage is selected as it was cut. -/

namespace Notely.Desktop.CitationLines

open Notely.Lib.Strings Notely.Lib.Paths Notely.Desktop.EditorState
open Notely.Engine.Chunker Notely.Engine.NoteChunks
open Notely.Desktop.Dart (length skipUnits firstUnits units length_nil length_cons length_append length_newline
  skipUnits_append firstUnits_append)

/-! ### Selecting -/

/-- The loop of `selectLines` from line `i` on, at `pos`. -/
def selectFrom (startLine endLine i pos selStart selEnd : ℕ) : List Text → ℕ × ℕ
  | [] => (selStart, selEnd)
  | line :: lines =>
    let selStart := if i = startLine then pos else selStart
    if i = endLine then (selStart, pos + length line)
    else selectFrom startLine endLine (i + 1) (pos + length line + 1) selStart selEnd lines

/-- The selection that `selectLines` makes in a text. -/
def selection (content : Text) (startLine endLine : ℕ) : ℕ × ℕ :=
  let (selStart, selEnd) := selectFrom startLine endLine 0 0 0 (length content) (content.splitOn '\n')
  let s := min selStart (length content)
  (s, max s (min selEnd (length content)))

/-- `selectLines`: the selection, if a note is open. -/
def selectLines (e : Editor) (startLine endLine : ℕ) : Option (ℕ × ℕ) :=
  if e.openPath.isSome then some (selection e.text startLine endLine) else none

/-- `textInside` of a selection. -/
def textInside (content : Text) (sel : ℕ × ℕ) : Text := firstUnits (sel.2 - sel.1) (skipUnits sel.1 content)

/-- Lines that end. -/
def ended (ls : List Text) : Text := ls.flatMap (· ++ ['\n'])

@[simp] theorem ended_nil : ended [] = [] := rfl
@[simp] theorem ended_cons (l : Text) (ls : List Text) : ended (l :: ls) = l ++ '\n' :: ended ls := by
  simp [ended]

/-- Lines joined are all of them ended, but for the last. -/
theorem intercalate_append (ls : List Text) {ms : List Text} (h : ms ≠ []) :
    ['\n'].intercalate (ls ++ ms) = ended ls ++ ['\n'].intercalate ms := by
  induction ls with
  | nil => rfl
  | cons l ls ih =>
    have hne : ls ++ ms ≠ [] := by simp [h]
    obtain ⟨m, rest, hm⟩ := List.exists_cons_of_ne_nil hne
    have hjoin : ['\n'].intercalate (l :: (ls ++ ms)) = l ++ '\n' :: ['\n'].intercalate (ls ++ ms) := by
      rw [hm]
      simp
    rw [List.cons_append, hjoin, ih, ended_cons, List.append_assoc, List.cons_append]

@[simp] theorem ended_append (ls ms : List Text) : ended (ls ++ ms) = ended ls ++ ended ms := by
  simp [ended]

/-- Lines joined begin with the first of them. -/
theorem exists_rest (ls : List Text) (l : Text) (ms : List Text) :
    ∃ rest, ['\n'].intercalate (ls ++ l :: ms) = ended ls ++ l ++ rest := by
  rw [intercalate_append ls (by simp)]
  cases ms with
  | nil => exact ⟨[], by simp⟩
  | cons m ms => exact ⟨'\n' :: ['\n'].intercalate (m :: ms), by simp⟩

theorem intercalate_concat (ls : List Text) (l : Text) :
    ['\n'].intercalate (ls ++ [l]) = ended ls ++ l := by
  rw [intercalate_append ls (by simp)]
  simp

section Selection
variable {startLine endLine i pos selStart selEnd : ℕ} {lines : List Text} {line : Text}

/-- Past the first line, the loop looks for the last. -/
theorem selectFrom_after (hs : startLine < i) (he : i ≤ endLine) (hline : lines[endLine - i]? = some line) :
    selectFrom startLine endLine i pos selStart selEnd lines =
      (selStart, pos + length (ended (lines.take (endLine - i))) + length line) := by
  induction lines generalizing i pos with
  | nil => simp at hline
  | cons l lines ih =>
    rw [selectFrom, if_neg hs.ne']
    by_cases hi : i = endLine
    · subst hi
      rw [Nat.sub_self, List.getElem?_cons_zero, Option.some.injEq] at hline
      simp [hline]
    · have hsub : endLine - i = endLine - (i + 1) + 1 := by omega
      rw [hsub, List.getElem?_cons_succ] at hline
      rw [if_neg hi, ih (by omega) (by omega) hline, hsub, List.take_succ_cons, ended_cons, length_append,
        length_cons, ← length_newline, length_cons, length_nil]
      congr 1
      omega

/-- The loop finds where the first line starts and where the last one ends. -/
theorem selectFrom_before (hs : i ≤ startLine) (he : startLine ≤ endLine)
    (hline : lines[endLine - i]? = some line) :
    selectFrom startLine endLine i pos selStart selEnd lines =
      (pos + length (ended (lines.take (startLine - i))),
        pos + length (ended (lines.take (endLine - i))) + length line) := by
  induction lines generalizing i pos selStart with
  | nil => simp at hline
  | cons l lines ih =>
    rw [selectFrom]
    by_cases hi : i = endLine
    · obtain rfl : i = startLine := by omega
      subst hi
      rw [Nat.sub_self, List.getElem?_cons_zero, Option.some.injEq] at hline
      simp [hline]
    · have hsub : endLine - i = endLine - (i + 1) + 1 := by omega
      rw [hsub, List.getElem?_cons_succ] at hline
      rw [if_neg hi]
      have hunits : units '\n' = 1 := by decide
      by_cases hstart : i = startLine
      · subst hstart
        rw [if_pos rfl, selectFrom_after (by omega) (by omega) hline, hsub, List.take_succ_cons, ended_cons,
          length_append, length_cons, hunits, Nat.sub_self, List.take_zero, ended_nil, length_nil]
        congr 1
        omega
      · have hsub' : startLine - i = startLine - (i + 1) + 1 := by omega
        rw [ih (by omega) hline, hsub, hsub', List.take_succ_cons, List.take_succ_cons, ended_cons, ended_cons,
          length_append, length_cons, length_append, length_cons, hunits]
        congr 1 <;> omega

/-- The lines `mid` and `last` of a text, selected by their numbers. -/
theorem textInside_selection {content : Text} {before mid after : List Text} {last : Text}
    (hlines : content.splitOn '\n' = before ++ (mid ++ last :: after)) :
    textInside content (selection content before.length (before.length + mid.length)) =
      ['\n'].intercalate (mid ++ [last]) := by
  obtain ⟨rest, hrest⟩ := exists_rest mid last after
  have hcontent : content = ended before ++ (ended mid ++ last ++ rest) := by
    rw [← hrest, ← intercalate_append _ (by simp), ← hlines, List.intercalate_splitOn]
  have hline : (before ++ (mid ++ last :: after))[before.length + mid.length - 0]? = some last := by
    rw [Nat.sub_zero, List.getElem?_append_right (by omega), Nat.add_sub_cancel_left,
      List.getElem?_append_right le_rfl, Nat.sub_self, List.getElem?_cons_zero]
  have htake : (before ++ (mid ++ last :: after)).take (before.length + mid.length) = before ++ mid := by
    rw [List.take_length_add_append, List.take_left]
  have hscan : selectFrom before.length (before.length + mid.length) 0 0 0 (length content)
      (before ++ (mid ++ last :: after)) =
      (length (ended before), length (ended before) + length (ended mid ++ last)) := by
    rw [selectFrom_before (Nat.zero_le _) (Nat.le_add_right _ _) hline, Nat.sub_zero, Nat.sub_zero, htake,
      List.take_left, Nat.zero_add, Nat.zero_add, ended_append, length_append, length_append, Nat.add_assoc]
  have hlength := congrArg length hcontent
  rw [length_append, length_append] at hlength
  have hsel : selection content before.length (before.length + mid.length) =
      (length (ended before), length (ended before) + length (ended mid ++ last)) := by
    unfold selection
    rw [hlines, hscan]
    simp only [Prod.mk.injEq]
    omega
  rw [hsel, textInside, Nat.add_sub_cancel_left, intercalate_concat]
  conv_lhs => rw [hcontent, skipUnits_append]
  rw [firstUnits_append]

/-- **`selectLines` selects the lines asked for.** -/
theorem lines_textInside {content : Text} (he : startLine ≤ endLine)
    (hlen : endLine < (content.splitOn '\n').length) :
    (textInside content (selection content startLine endLine)).splitOn '\n' =
      ((content.splitOn '\n').take (endLine + 1)).drop startLine := by
  obtain ⟨lines, hlines⟩ : ∃ lines, content.splitOn '\n' = lines := ⟨_, rfl⟩
  rw [hlines] at hlen ⊢
  have hnewline : ∀ l ∈ lines, '\n' ∉ l := fun l hl => by
    rw [← hlines] at hl
    exact sep_notMem_of_mem_splitOn hl
  have hstart : (lines.take startLine).length = startLine := by
    rw [List.length_take]
    omega
  have hmid : (lines.take startLine).length + ((lines.take endLine).drop startLine).length = endLine := by
    rw [List.length_drop, List.length_take, List.length_take]
    omega
  have htaken : (lines.take (endLine + 1)).drop startLine =
      (lines.take endLine).drop startLine ++ [lines[endLine]] := by
    rw [List.take_succ_eq_append_getElem hlen, List.drop_append_of_le_length]
    rw [List.length_take]
    omega
  have hsplit : lines = lines.take startLine ++
      ((lines.take endLine).drop startLine ++ lines[endLine] :: lines.drop (endLine + 1)) := by
    have hbefore : lines.take startLine = (lines.take endLine).take startLine := by
      rw [List.take_take, Nat.min_eq_left he]
    rw [← List.append_assoc, hbefore, List.take_append_drop, ← List.drop_eq_getElem_cons hlen,
      List.take_append_drop]
  have hsel := textInside_selection (hlines.trans hsplit)
  rw [hmid, hstart, ← htaken] at hsel
  rw [hsel, List.splitOn_intercalate]
  · exact fun l hl => hnewline l (List.mem_of_mem_take (List.mem_of_mem_drop hl))
  · rw [htaken]
    simp

end Selection

/-! ### The lines of the editor -/

/-- A line without the carriage return at its end, if it has one. -/
def dropCr (l : Text) : Text := if l.getLast? = some '\r' then l.dropLast else l

/-- The lines that the lines of a file are in the editor: each is cut at its carriage returns, but for the one before
its newline. -/
def pieces : List Text → List (List Text)
  | [] => []
  | [l] => [l.splitOn '\r']
  | l :: l' :: ls => (dropCr l).splitOn '\r' :: pieces (l' :: ls)

/-- `\r` read as `\n`. -/
def lineFeed (c : Char) : Char := if c = '\r' then '\n' else c

section Normalize
variable {l rest : Text}

theorem replaceAll_cr (s : Text) : replaceAll ['\r'] ['\n'] s = s.map lineFeed := by
  rw [replaceAll_singleton, List.map_eq_flatMap]
  refine congrArg (s.flatMap ·) (funext fun c => ?_)
  unfold lineFeed
  split_ifs <;> rfl

theorem dropCr_cons {c : Char} (h : l ≠ [] ∨ c ≠ '\r') : dropCr (c :: l) = c :: dropCr l := by
  cases l with
  | nil =>
    have hc : c ≠ '\r' := h.resolve_left (by simp)
    simp [dropCr, hc]
  | cons d l =>
    simp only [dropCr, List.getLast?_cons_cons, List.dropLast_cons_cons]
    split_ifs <;> rfl

/-- A line without a newline has no `\r\n`. -/
theorem replaceAll_crlf (h : '\n' ∉ l) : replaceAll ['\r', '\n'] ['\n'] l = l := by
  unfold replaceAll
  induction l with
  | nil => rfl
  | cons c l ih =>
    rw [List.mem_cons, not_or] at h
    have hpre : ¬ ['\r', '\n'] <+: c :: l := by
      intro hp
      have hmem : '\n' ∈ c :: l := hp.subset (by simp)
      exact h.2 ((List.mem_cons.mp hmem).resolve_left h.1)
    rw [replaceFrom, if_neg hpre, ih h.2]

/-- A line that ends loses the carriage return at its end. -/
theorem replaceAll_crlf_append (h : '\n' ∉ l) : replaceAll ['\r', '\n'] ['\n'] (l ++ '\n' :: rest) =
    dropCr l ++ '\n' :: replaceAll ['\r', '\n'] ['\n'] rest := by
  unfold replaceAll
  induction l with
  | nil =>
    have hpre : ¬ ['\r', '\n'] <+: '\n' :: rest := by simp
    rw [List.nil_append, replaceFrom, if_neg hpre]
    rfl
  | cons c l ih =>
    rw [List.mem_cons, not_or] at h
    by_cases hcrlf : c = '\r' ∧ l = []
    · obtain ⟨rfl, rfl⟩ := hcrlf
      have hpre : ['\r', '\n'] <+: '\r' :: '\n' :: rest := by simp
      rw [List.cons_append, List.nil_append, replaceFrom, if_pos hpre]
      rfl
    · have hpre : ¬ ['\r', '\n'] <+: c :: (l ++ '\n' :: rest) := by
        intro hp
        obtain ⟨hc, hp⟩ := List.cons_prefix_cons.mp hp
        cases l with
        | nil => exact hcrlf ⟨hc.symm, rfl⟩
        | cons d l =>
          have hd := (List.cons_prefix_cons.mp hp).1
          exact h.2 (hd ▸ List.mem_cons_self)
      have hcons : l ≠ [] ∨ c ≠ '\r' := by
        by_contra hno
        push Not at hno
        exact hcrlf ⟨hno.2, hno.1⟩
      rw [List.cons_append, replaceFrom, if_neg hpre, ih h.2, dropCr_cons hcons, List.cons_append]

theorem dropCr_sublist (l : Text) : (dropCr l).Sublist l := by
  unfold dropCr
  split_ifs
  · exact List.dropLast_sublist l
  · exact List.Sublist.refl l

/-- A line, its carriage returns read as newlines, is cut where they were. -/
theorem splitOn_map_lineFeed (h : '\n' ∉ l) : (l.map lineFeed).splitOn '\n' = l.splitOn '\r' := by
  induction l with
  | nil => simp
  | cons c l ih =>
    rw [List.mem_cons, not_or] at h
    have hfeed : (lineFeed c == '\n') = (c == '\r') := by
      by_cases hc : c = '\r'
      · simp [lineFeed, hc]
      · simp [lineFeed, hc, Ne.symm h.1]
    rw [List.map_cons, List.splitOn_cons_eq_if_modifyHead, List.splitOn_cons_eq_if_modifyHead, ih h.2, hfeed]
    split_ifs with hc
    · rfl
    · have : lineFeed c = c := by
        unfold lineFeed
        rw [if_neg (by simpa using hc)]
      rw [this]

/-- **The lines of the editor are the pieces of the lines of the file.** -/
theorem lines_normalize {lines : List Text} (hne : lines ≠ []) (h : ∀ l ∈ lines, '\n' ∉ l) :
    (normalizeNewlines (['\n'].intercalate lines)).splitOn '\n' = (pieces lines).flatten := by
  induction lines with
  | nil => exact absurd rfl hne
  | cons l ls ih =>
    have hl := h l List.mem_cons_self
    cases ls with
    | nil =>
      rw [normalizeNewlines, List.intercalate_singleton, replaceAll_crlf hl, replaceAll_cr, splitOn_map_lineFeed hl]
      simp [pieces]
    | cons l' ls =>
      have hjoin : ['\n'].intercalate (l :: l' :: ls) = l ++ '\n' :: ['\n'].intercalate (l' :: ls) := by simp
      have hrest := ih (by simp) fun m hm => h m (List.mem_cons_of_mem _ hm)
      have hdrop : '\n' ∉ dropCr l := fun hmem => hl ((dropCr_sublist l).subset hmem)
      rw [normalizeNewlines, replaceAll_cr] at hrest ⊢
      rw [hjoin, replaceAll_crlf_append hl, List.map_append, List.map_cons,
        show lineFeed '\n' = '\n' from rfl, List.splitOn_append_cons_self, splitOn_map_lineFeed hdrop, hrest]
      rfl

end Normalize

/-! ### Counting lines -/

/-- The line is not blank. -/
def filled (l : Text) : Bool := trim l ≠ []

section Pieces
variable {l : Text} {lines : List Text}

theorem filled_iff : filled l = true ↔ ∃ c ∈ l, whiteSpace c = false := by
  rw [filled, decide_eq_true_eq, trim, Ne, trimBy_eq_nil_iff]
  simp

/-- Only white space is dropped from a line. -/
theorem filled_dropCr (l : Text) : filled (dropCr l) = filled l := by
  rw [Bool.eq_iff_iff, filled_iff, filled_iff]
  constructor
  · rintro ⟨c, hc, hw⟩
    exact ⟨c, (dropCr_sublist l).subset hc, hw⟩
  · rintro ⟨c, hc, hw⟩
    refine ⟨c, ?_, hw⟩
    unfold dropCr
    split_ifs with hlast
    · obtain ⟨l', rfl⟩ := List.getLast?_eq_some_iff.mp hlast
      have hne : c ≠ '\r' := by
        rintro rfl
        exact absurd hw (by decide)
      simpa [hne] using hc
    · exact hc

/-- A line without carriage returns inside is one line, or one line and an empty one. -/
theorem splitOn_cr (h : '\r' ∉ dropCr l) : ∃ rest, l.splitOn '\r' = dropCr l :: rest ∧ ∀ r ∈ rest, r = [] := by
  by_cases hlast : l.getLast? = some '\r'
  · obtain ⟨l', rfl⟩ := List.getLast?_eq_some_iff.mp hlast
    have hdrop : dropCr (l' ++ ['\r']) = l' := by simp [dropCr]
    rw [hdrop] at h ⊢
    exact ⟨[[]], by rw [List.splitOn_append_cons_self, List.splitOn_eq_singleton h, List.splitOn_nil]; rfl, by simp⟩
  · have hdrop : dropCr l = l := by rw [dropCr, if_neg hlast]
    rw [hdrop] at h ⊢
    exact ⟨[], List.splitOn_eq_singleton h, by simp⟩

theorem two_le_length_splitOn {s : Text} {c : Char} (h : c ∈ s) : 2 ≤ (s.splitOn c).length := by
  obtain ⟨a, b, rfl⟩ := List.append_of_mem h
  rw [List.splitOn_append_cons_self, List.length_append]
  have ha := List.length_pos_iff.mpr (List.splitOn_ne_nil c a)
  have hb := List.length_pos_iff.mpr (List.splitOn_ne_nil c b)
  omega

theorem getElem?_pieces (lines : List Text) (i : ℕ) : (pieces lines)[i]? =
    lines[i]?.map fun l => if i + 1 < lines.length then (dropCr l).splitOn '\r' else l.splitOn '\r' := by
  induction lines generalizing i with
  | nil => rfl
  | cons l ls ih =>
    cases ls with
    | nil => cases i <;> simp [pieces]
    | cons l' ls =>
      cases i with
      | zero => simp [pieces]
      | succ i =>
        rw [pieces, List.getElem?_cons_succ, ih, List.getElem?_cons_succ]
        simp

@[simp] theorem length_pieces (lines : List Text) : (pieces lines).length = lines.length := by
  induction lines with
  | nil => rfl
  | cons l ls ih =>
    cases ls with
    | nil => rfl
    | cons l' ls => rw [pieces, List.length_cons, ih, List.length_cons, List.length_cons, List.length_cons]

/-- The pieces of a line are those of its splits. -/
theorem mem_pieces {B : List Text} (h : B ∈ pieces lines) :
    ∃ l ∈ lines, B = (dropCr l).splitOn '\r' ∨ B = l.splitOn '\r' := by
  obtain ⟨i, hi⟩ := List.mem_iff_getElem?.mp h
  rw [getElem?_pieces, Option.map_eq_some_iff] at hi
  obtain ⟨l, hl, rfl⟩ := hi
  refine ⟨l, List.mem_of_getElem? hl, ?_⟩
  split_ifs
  · exact Or.inl rfl
  · exact Or.inr rfl

theorem cr_notMem_pieces {d : Text} (h : d ∈ (pieces lines).flatten) : '\r' ∉ d := by
  obtain ⟨B, hB, hd⟩ := List.mem_flatten.mp h
  obtain ⟨l, -, rfl | rfl⟩ := mem_pieces hB <;> exact sep_notMem_of_mem_splitOn hd

theorem nil_notMem_pieces (lines : List Text) : [] ∉ pieces lines := by
  intro h
  obtain ⟨l, -, hl | hl⟩ := mem_pieces h <;> exact List.splitOn_ne_nil _ _ hl.symm

/-- A blank line has blank pieces, and one without carriage returns inside has one that is not blank. -/
theorem countP_piece {i : ℕ} {B : List Text} (hB : (pieces lines)[i]? = some B) (hl : lines[i]? = some l)
    (hgood : filled l → '\r' ∉ dropCr l) : B.countP filled = if filled l then 1 else 0 := by
  rw [getElem?_pieces, hl, Option.map_some, Option.some.injEq] at hB
  split_ifs with hf
  · obtain ⟨rest, hrest, hnil⟩ := splitOn_cr (hgood hf)
    have hblank : rest.countP filled = 0 := by
      rw [List.countP_eq_zero]
      intro r hr
      rw [hnil r hr]
      decide
    split_ifs at hB
    · rw [List.splitOn_eq_singleton (hgood hf)] at hB
      rw [← hB, List.countP_singleton, filled_dropCr, hf, if_pos rfl]
    · rw [hrest] at hB
      rw [← hB, List.countP_cons_of_pos (by rw [filled_dropCr, hf]), hblank]
  · rw [List.countP_eq_zero]
    intro d hd hfd
    obtain ⟨c, hc, hw⟩ := filled_iff.mp hfd
    refine hf (filled_iff.mpr ⟨c, ?_, hw⟩)
    split_ifs at hB
    · exact (dropCr_sublist l).subset (subset_of_mem_splitOn (hB ▸ hd) hc)
    · exact subset_of_mem_splitOn (hB ▸ hd) hc

/-- As many pieces are not blank as lines are not, if these have no carriage returns inside. -/
theorem countP_take_pieces (hgood : ∀ l ∈ lines, filled l → '\r' ∉ dropCr l) (k : ℕ) :
    ((pieces lines).take k).flatten.countP filled = (lines.take k).countP filled := by
  induction k with
  | zero => simp
  | succ k ih =>
    rw [List.take_add_one, List.take_add_one, List.flatten_append, List.countP_append, List.countP_append, ih]
    congr 1
    cases hl : lines[k]? with
    | none =>
      have hnone : (pieces lines)[k]? = none := by rw [getElem?_pieces, hl, Option.map_none]
      rw [hnone]
      rfl
    | some l =>
      obtain ⟨B, hB⟩ : ∃ B, (pieces lines)[k]? = some B := by
        rw [getElem?_pieces, hl]
        exact ⟨_, rfl⟩
      have hcount := countP_piece hB hl (hgood l (List.mem_of_getElem? hl))
      rw [hB]
      simpa [List.countP_singleton] using hcount

/-- Up to the last line in question the editor has the lines of the file, if these have no carriage returns
inside. -/
theorem take_pieces {e : ℕ} (he : e < lines.length)
    (hgood : ∀ i ≤ e, ∀ l, lines[i]? = some l → '\r' ∉ dropCr l) :
    (pieces lines).flatten.take (e + 1) = (lines.take (e + 1)).map dropCr := by
  induction lines generalizing e with
  | nil => simp at he
  | cons l ls ih =>
    have hl : '\r' ∉ dropCr l := hgood 0 (Nat.zero_le e) l rfl
    cases ls with
    | nil =>
      obtain rfl : e = 0 := by simpa using he
      obtain ⟨rest, hrest, -⟩ := splitOn_cr hl
      simp [pieces, hrest]
    | cons l' ls =>
      rw [pieces, List.flatten_cons, List.splitOn_eq_singleton hl]
      cases e with
      | zero => simp
      | succ e =>
        have hrest := ih (by simpa using he) fun i hi m hm => hgood (i + 1) (by omega) m (by simpa using hm)
        calc ([dropCr l] ++ (pieces (l' :: ls)).flatten).take (e + 1 + 1)
            = dropCr l :: (pieces (l' :: ls)).flatten.take (e + 1) := rfl
          _ = ((l :: l' :: ls).take (e + 1 + 1)).map dropCr := by rw [hrest]; rfl

end Pieces

section Blocks
variable {Bs : List (List Text)} {B : List Text} {j k : ℕ}

theorem le_length_flatten (hne : [] ∉ Bs) (hk : k ≤ Bs.length) : k ≤ (Bs.take k).flatten.length := by
  induction Bs generalizing k with
  | nil => simpa using hk
  | cons B Bs ih =>
    cases k with
    | zero => simp
    | succ k =>
      have hB : 0 < B.length := List.length_pos_iff.mpr fun h => hne (by simp [h])
      have hrest := ih (fun h => hne (List.mem_cons_of_mem _ h)) (by simpa using hk)
      rw [List.take_succ_cons, List.flatten_cons, List.length_append]
      omega

/-- Blocks none of which is empty, and one of which has two elements, have more elements than they are. -/
theorem lt_length_flatten (hne : [] ∉ Bs) (hk : k ≤ Bs.length) (hj : j < k) (hB : Bs[j]? = some B)
    (h2 : 2 ≤ B.length) : k < (Bs.take k).flatten.length := by
  induction Bs generalizing j k with
  | nil => simp at hB
  | cons B' Bs ih =>
    obtain ⟨k, rfl⟩ := Nat.exists_eq_succ_of_ne_zero (Nat.ne_zero_of_lt hj)
    have hne' : [] ∉ Bs := fun h => hne (List.mem_cons_of_mem _ h)
    have hk' : k ≤ Bs.length := by simpa using hk
    rw [List.take_succ_cons, List.flatten_cons, List.length_append]
    cases j with
    | zero =>
      rw [List.getElem?_cons_zero, Option.some.injEq] at hB
      have hrest := le_length_flatten hne' hk'
      rw [hB]
      omega
    | succ j =>
      have hB' : 0 < B'.length := List.length_pos_iff.mpr fun h => hne (by simp [h])
      have hrest : k < (Bs.take k).flatten.length :=
        ih hne' hk' (Nat.lt_of_succ_lt_succ hj) (by simpa using hB)
      omega

end Blocks

/-! ### Agreement -/

/-- The lines of a text that are not blank, each without the carriage return at its end. -/
def shownLines (ls : List Text) : List Text := (ls.filter filled).map dropCr

/-- The passage is selected as it was cut: with the note open in an editor, `selectLines` selects a text whose lines
that are not blank are those of the passage, up to a carriage return at the end of each. -/
def Agrees (content : Text) (c : Chunk) : Prop :=
  ∀ (e : Editor) (path : Path), e.disk path = some content →
    ∃ sel, selectLines (e.readDone path .ok) c.startLine c.endLine = some sel ∧
      shownLines ((textInside (e.readDone path .ok).text sel).splitOn '\n') =
        (c.text.splitOn '\n').map dropCr

/-- **No line up to the last one that is not blank has a carriage return but at its end.** -/
def Plain (content : Text) : Prop :=
  ∀ i l, (content.splitOn '\n')[i]? = some l → (∃ k, i ≤ k ∧ Filled content k) → '\r' ∉ dropCr l

section Agree
variable {content : Text} {c : Chunk} {maxChars : ℕ}

theorem filter_zipIdx (ls : List Text) (n first last : ℕ) :
    ((ls.zipIdx n).filter fun p => first ≤ p.2 ∧ p.2 ≤ last).map Prod.fst =
      (ls.take (last + 1 - n)).drop (first - n) := by
  induction ls generalizing n with
  | nil => simp
  | cons l ls ih =>
    rw [List.zipIdx_cons]
    by_cases hlast : n ≤ last
    · have hsub : last + 1 - n = last + 1 - (n + 1) + 1 := by omega
      rw [hsub, List.take_succ_cons]
      by_cases hfirst : first ≤ n
      · have hzero : first - n = 0 := by omega
        rw [List.filter_cons_of_pos (by simpa using ⟨hfirst, hlast⟩), List.map_cons, ih, hzero,
          show first - (n + 1) = 0 by omega, List.drop_zero, List.drop_zero]
      · have hsucc : first - n = first - (n + 1) + 1 := by omega
        rw [List.filter_cons_of_neg (by simp [hfirst]), ih, hsucc, List.drop_succ_cons]
    · rw [List.filter_cons_of_neg (by simp [hlast]), ih, show last + 1 - n = 0 by omega,
        show last + 1 - (n + 1) = 0 by omega]
      simp

theorem numberedLines_eq (content : Text) : numberedLines content = (content.splitOn '\n').zipIdx.map Prod.swap := rfl

/-- The lines of a passage, taken from those of the file. -/
theorem linesIn_eq (content : Text) (c : Chunk) : (linesIn content c).map Prod.snd =
    (((content.splitOn '\n').take (c.endLine + 1)).drop c.startLine).filter filled := by
  rw [linesIn, filledLines, numberedLines_eq, List.filter_filter, List.filter_map, List.map_map]
  have h := filter_zipIdx (content.splitOn '\n') 0 c.startLine c.endLine
  rw [Nat.sub_zero, Nat.sub_zero] at h
  rw [← h, List.filter_map, List.filter_filter]
  have hsnd : (Prod.snd ∘ Prod.swap : Text × ℕ → Text) = Prod.fst := rfl
  rw [hsnd]
  congr 1
  refine List.filter_congr fun x _ => ?_
  have hspans (i : ℕ) : Spans c i ↔ c.startLine ≤ i ∧ i ≤ c.endLine := Iff.rfl
  rw [Bool.eq_iff_iff]
  simp [blank, filled, hspans, and_comm]

/-- What the lines of a file are. -/
theorem filled_getElem? {k : ℕ} (h : Filled content k) :
    ∃ l, (content.splitOn '\n')[k]? = some l ∧ filled l = true := by
  obtain ⟨⟨i, l⟩, hl, rfl⟩ := h
  obtain ⟨hmem, hblank⟩ := List.mem_filter.mp hl
  obtain ⟨⟨l', i'⟩, hzip, heq⟩ := List.mem_map.mp hmem
  obtain ⟨rfl, rfl⟩ := Prod.mk.inj heq
  exact ⟨l', List.mk_mem_zipIdx_iff_getElem?.mp hzip, by simpa [blank, filled] using hblank⟩

theorem filled_of_getElem? {k : ℕ} {l : Text} (hl : (content.splitOn '\n')[k]? = some l) (hf : filled l = true) :
    Filled content k := by
  refine ⟨(k, l), List.mem_filter.mpr ⟨?_, by simpa [blank, filled] using hf⟩, rfl⟩
  exact List.mem_map.mpr ⟨(l, k), List.mk_mem_zipIdx_iff_getElem?.mpr hl, rfl⟩

/-- The passages of a note. -/
theorem passages_note (content : Text) (maxChars : ℕ) :
    Passages content (max maxChars 1) (chunkMarkdown content maxChars) := by
  obtain ⟨gs, hgs, heq⟩ := chunkMarkdown_eq content maxChars
  rw [heq]
  exact passages_groups hgs

/-- The two sides of an agreement, as lines. -/
theorem agrees_iff_lines (hc : c ∈ chunkMarkdown content maxChars) : Agrees content c ↔
    shownLines (((pieces (content.splitOn '\n')).flatten.take (c.endLine + 1)).drop c.startLine) =
      shownLines (((content.splitOn '\n').take (c.endLine + 1)).drop c.startLine) := by
  have hpassages := passages_note content maxChars
  have hle := hpassages.ranged c hc
  obtain ⟨l, hl, -⟩ := filled_getElem? (hpassages.ends c hc).2
  have hnewline : ∀ l ∈ content.splitOn '\n', '\n' ∉ l := fun l hl => sep_notMem_of_mem_splitOn hl
  have hnorm := lines_normalize (List.splitOn_ne_nil _ _) hnewline
  rw [List.intercalate_splitOn] at hnorm
  have hlen : c.endLine < ((normalizeNewlines content).splitOn '\n').length := by
    have hlt : c.endLine < (content.splitOn '\n').length := (List.getElem?_eq_some_iff.mp hl).1
    have hpieces := le_length_flatten (nil_notMem_pieces (content.splitOn '\n')) le_rfl
    rw [List.take_length, length_pieces] at hpieces
    rw [hnorm]
    omega
  have htext : (c.text.splitOn '\n').map dropCr =
      shownLines (((content.splitOn '\n').take (c.endLine + 1)).drop c.startLine) := by
    rw [hpassages.texts c hc, linesIn_eq, List.splitOn_intercalate, shownLines]
    · intro m hm
      exact hnewline m (List.mem_of_mem_take (List.mem_of_mem_drop (List.mem_filter.mp hm).1))
    · rw [← linesIn_eq, Ne, List.map_eq_nil_iff]
      obtain ⟨first, hfirst, hnum⟩ := (hpassages.ends c hc).1
      refine List.ne_nil_of_mem (a := first) (List.mem_filter.mpr ⟨hfirst, ?_⟩)
      simpa [Spans, hnum] using hle
  have hread (e : Editor) (path : Path) (h : e.disk path = some content) :
      (e.readDone path .ok).openPath = some path ∧ (e.readDone path .ok).text = normalizeNewlines content := by
    simp [Editor.readDone, h]
  have hselected := lines_textInside hle hlen
  rw [hnorm] at hselected
  rw [← htext]
  constructor
  · intro h
    obtain ⟨sel, hsel, hlines⟩ := h (Editor.new fun _ => some content) [] rfl
    obtain ⟨hopen, htxt⟩ := hread (Editor.new fun _ => some content) [] rfl
    rw [selectLines, hopen, htxt, Option.isSome_some, if_pos rfl, Option.some.injEq] at hsel
    rwa [htxt, ← hsel, hselected] at hlines
  · intro h e path hdisk
    obtain ⟨hopen, htxt⟩ := hread e path hdisk
    refine ⟨selection (normalizeNewlines content) c.startLine c.endLine, ?_, ?_⟩
    · rw [selectLines, hopen, htxt, Option.isSome_some, if_pos rfl]
    · rw [htxt, hselected, h]

theorem notMem_getLast?_dropCr {l : Text} (h : '\r' ∉ l) : dropCr l = l := by
  rw [dropCr, if_neg]
  exact fun hlast => h (List.mem_of_getLast? hlast)

/-- **Without carriage returns inside, the passages are selected as they were cut.** -/
theorem agrees_of_plain (h : Plain content) (hc : c ∈ chunkMarkdown content maxChars) : Agrees content c := by
  have hend := ((passages_note content maxChars).ends c hc).2
  obtain ⟨l, hl, -⟩ := filled_getElem? hend
  have hgood : ∀ i ≤ c.endLine, ∀ m, (content.splitOn '\n')[i]? = some m → '\r' ∉ dropCr m :=
    fun i hi m hm => h i m hm ⟨c.endLine, hi, hend⟩
  have hmap (l : Text) : (filled ∘ dropCr) l = filled l := filled_dropCr l
  rw [agrees_iff_lines hc, take_pieces (List.getElem?_eq_some_iff.mp hl).1 hgood, ← List.map_drop, shownLines,
    List.filter_map, List.map_map, shownLines, funext hmap]
  refine List.map_congr_left fun m hm => ?_
  obtain ⟨i, hi⟩ := List.mem_iff_getElem?.mp
    (List.mem_of_mem_drop (List.mem_filter.mp hm).1)
  rw [List.getElem?_take] at hi
  split_ifs at hi with hle
  exact notMem_getLast?_dropCr (hgood i (by omega) m hi)

/-- Every line that is not blank is without carriage returns inside, if all passages agree. -/
theorem good_of_filled (h : ∀ c ∈ chunkMarkdown content maxChars, Agrees content c) :
    ∀ l ∈ content.splitOn '\n', filled l → '\r' ∉ dropCr l := by
  intro l hl hf hcr
  obtain ⟨i, hi⟩ := List.mem_iff_getElem?.mp hl
  obtain ⟨c, ⟨hc, hstart, hend⟩, -⟩ :=
    (passages_note content maxChars).covered i (filled_of_getElem? hi hf)
  have hlines := (agrees_iff_lines hc).mp (h c hc)
  have hmem : dropCr l ∈ shownLines (((content.splitOn '\n').take (c.endLine + 1)).drop c.startLine) := by
    refine List.mem_map_of_mem (List.mem_filter.mpr ⟨?_, hf⟩)
    have hget : (((content.splitOn '\n').take (c.endLine + 1)).drop c.startLine)[i - c.startLine]? = some l := by
      rw [List.getElem?_drop, List.getElem?_take, show c.startLine + (i - c.startLine) = i by omega,
        if_pos (by omega), hi]
    exact List.mem_of_getElem? hget
  rw [← hlines] at hmem
  obtain ⟨d, hd, hdl⟩ := List.mem_map.mp hmem
  have hdcr := cr_notMem_pieces (List.mem_of_mem_take (List.mem_of_mem_drop (List.mem_filter.mp hd).1))
  rw [← hdl] at hcr
  exact hdcr ((dropCr_sublist d).subset hcr)

/-- As many lines that are not blank are selected as the passage has. -/
theorem countP_of_agrees (hc : c ∈ chunkMarkdown content maxChars) (h : Agrees content c) :
    (((pieces (content.splitOn '\n')).flatten.take (c.endLine + 1)).drop c.startLine).countP filled =
      (((content.splitOn '\n').take (c.endLine + 1)).drop c.startLine).countP filled := by
  have hlines := congrArg List.length ((agrees_iff_lines hc).mp h)
  rwa [shownLines, shownLines, List.length_map, List.length_map, ← List.countP_eq_length_filter,
    ← List.countP_eq_length_filter] at hlines

end Agree

section Fewer
variable {lines : List Text} {l last : Text} {first j next e : ℕ}

theorem countP_take_add_drop (ls : List Text) (n : ℕ) :
    ls.countP filled = (ls.take n).countP filled + (ls.drop n).countP filled := by
  rw [← List.countP_append, List.take_append_drop]

/-- The editor has, among its first lines, no fewer that are not blank than the file: up to the first line with a
carriage return inside they are the same, and those after it, up to `first`, are blank. -/
theorem countP_take_le (hlen : first ≤ lines.length)
    (hbefore : ∀ i < j, ∀ m, lines[i]? = some m → '\r' ∉ dropCr m)
    (hblank : ∀ k, j ≤ k → k < first → ∀ m, lines[k]? = some m → filled m = false) :
    (lines.take first).countP filled ≤ ((pieces lines).flatten.take first).countP filled := by
  have hsame : ((pieces lines).flatten.take (min first j)).countP filled =
      (lines.take (min first j)).countP filled := by
    rcases Nat.eq_zero_or_pos (min first j) with hzero | hpos
    · rw [hzero, List.take_zero, List.take_zero]
    · obtain ⟨t, ht⟩ := Nat.exists_eq_succ_of_ne_zero hpos.ne'
      have hcomp : filled ∘ dropCr = filled := funext filled_dropCr
      rw [ht, take_pieces (by omega) fun i hi m hm => hbefore i (by omega) m hm, List.countP_map, hcomp]
  have hrest : ((lines.take first).drop (min first j)).countP filled = 0 := by
    rw [List.countP_eq_zero]
    intro m hm
    obtain ⟨k, hk⟩ := List.mem_iff_getElem?.mp hm
    rw [List.getElem?_drop, List.getElem?_take] at hk
    split_ifs at hk with hlt
    rw [hblank _ (by omega) hlt m hk]
    simp
  have hsplit := countP_take_add_drop (lines.take first) (min first j)
  rw [hrest, List.take_take, Nat.min_eq_left (Nat.min_le_left first j)] at hsplit
  have hprefix : ((pieces lines).flatten.take (min first j)).Sublist ((pieces lines).flatten.take first) :=
    (List.take_prefix_take_left (Nat.min_le_left first j)).sublist
  have hle := hprefix.countP_le (p := filled)
  omega

/-- **A carriage return inside a blank line shifts the selection of the next passage**: it has fewer lines that are
not blank. -/
theorem countP_selected_lt (hj : j < e) (hfirst : first ≤ e) (hlast : lines[e]? = some last)
    (hflast : filled last = true) (hl : lines[j]? = some l) (hcr : '\r' ∈ dropCr l)
    (hgood : ∀ l ∈ lines, filled l → '\r' ∉ dropCr l)
    (hbefore : ∀ i < j, ∀ m, lines[i]? = some m → '\r' ∉ dropCr m)
    (hblank : ∀ k, j ≤ k → k < first → ∀ m, lines[k]? = some m → filled m = false) :
    (((pieces lines).flatten.take (e + 1)).drop first).countP filled <
      ((lines.take (e + 1)).drop first).countP filled := by
  obtain ⟨hlen, rfl⟩ := List.getElem?_eq_some_iff.mp hlast
  obtain ⟨B, hB, htwo⟩ : ∃ B, (pieces lines)[j]? = some B ∧ 2 ≤ B.length := by
    rw [getElem?_pieces, hl]
    refine ⟨_, rfl, ?_⟩
    split_ifs
    · exact two_le_length_splitOn hcr
    · exact two_le_length_splitOn ((dropCr_sublist l).subset hcr)
  -- the first `e` lines of the file are more than `e` in the editor
  have hmore := lt_length_flatten (nil_notMem_pieces lines) (by rw [length_pieces]; omega) hj hB htwo
  have hupto : (pieces lines).flatten.take (e + 1) = ((pieces lines).take e).flatten.take (e + 1) := by
    conv_lhs => rw [← List.take_append_drop e (pieces lines), List.flatten_append]
    rw [List.take_append_of_le_length hmore]
  have hselected := (List.take_sublist (e + 1) ((pieces lines).take e).flatten).countP_le (p := filled)
  rw [← hupto, countP_take_pieces hgood] at hselected
  have hfile : (lines.take (e + 1)).countP filled = (lines.take e).countP filled + 1 := by
    rw [List.take_succ_eq_append_getElem hlen, List.countP_append, List.countP_singleton, hflast, if_pos rfl]
  have hbelow := countP_take_le (by omega) hbefore hblank
  have hsplit := countP_take_add_drop ((pieces lines).flatten.take (e + 1)) first
  have hsplit' := countP_take_add_drop (lines.take (e + 1)) first
  rw [List.take_take, Nat.min_eq_left (by omega)] at hsplit hsplit'
  omega

end Fewer

section Exact
variable {content : Text} {maxChars : ℕ}

/-- **Every line up to the last one that is not blank is without carriage returns inside, if all passages agree.** -/
theorem plain_of_agrees (h : ∀ c ∈ chunkMarkdown content maxChars, Agrees content c) : Plain content := by
  classical
  intro j
  induction j using Nat.strong_induction_on with
  | _ j ih =>
    intro l hl hafter hcr
    have hpassages := passages_note content maxChars
    have hgood := good_of_filled h
    -- the next line that is not blank, and the passage it is in
    obtain ⟨next, ⟨hjnext, hfilled⟩, hmin⟩ : ∃ next, (j ≤ next ∧ Filled content next) ∧
        ∀ k < next, ¬ (j ≤ k ∧ Filled content k) :=
      ⟨Nat.find hafter, Nat.find_spec hafter, fun k hk => Nat.find_min hafter hk⟩
    obtain ⟨c, ⟨hc, hstart, hend⟩, -⟩ := hpassages.covered next hfilled
    obtain ⟨hfirst, hlast⟩ := hpassages.ends c hc
    have hne : j ≠ next := by
      rintro rfl
      obtain ⟨m, hm, hf⟩ := filled_getElem? hfilled
      rw [hl, Option.some.injEq] at hm
      subst hm
      exact hgood l (List.mem_of_getElem? hl) hf hcr
    -- nothing but blank lines is between that line and the passage
    have hblank : ∀ k, j ≤ k → k < c.startLine → ∀ m, (content.splitOn '\n')[k]? = some m → filled m = false := by
      intro k hjk hk m hm
      rw [Bool.eq_false_iff]
      exact fun hf => hmin k (by omega) ⟨hjk, filled_of_getElem? hm hf⟩
    obtain ⟨last, hlastline, hflast⟩ := filled_getElem? hlast
    have hlt := countP_selected_lt (by omega) (hpassages.ranged c hc) hlastline hflast hl hcr hgood
      (fun i hi m hm => ih i hi m hm ⟨next, by omega, hfilled⟩) hblank
    exact absurd (countP_of_agrees hc (h c hc)) hlt.ne

/-- A note with a carriage return alone, as old files have it. -/
def oldNote : Text := ['a', '\r', 'b', '\n', '\n', 'c']

end Exact

end Notely.Desktop.CitationLines
