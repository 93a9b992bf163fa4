import Notely.Engine.Markdown
import Notely.Lib.Commonmark
import Mathlib.Data.List.Forall2

/-! # The table of action items

`render_with_title` writes the action items as a table, one row for each, and `cell` is there to keep the table
well-formed.

* `renderWithTitle_table`: where the table stands in the document.
* `tableWellFormed_iff`: the table reads back as the items, row by row and cell by cell, exactly when no text of theirs
  has a carriage return inside or a pipe that a backslash escapes already. -/

namespace Notely.Engine.ActionTable

open Notely.Lib.Strings Notely.Lib.Commonmark Notely.Engine.Domain Notely.Engine.Markdown
open Notely.Engine.Chunker (trim)

def header : Text := "| Action | Owner | Deadline | Status |".toList

def delimiter : Text := "|--------|-------|----------|--------|".toList

/-- What is written before the table. -/
def beforeTable (ir : MeetingIr) (title : Text) : Text :=
  writeln ("# ".toList ++ title ++ ['\n']) ++
    writeln ("## Summary".toList ++ ['\n']) ++
    (if (trim ir.summary).isEmpty then writeln ("_No summary._".toList ++ ['\n'])
      else writeln (trim ir.summary ++ ['\n'])) ++
    renderSection "Participants" "_None identified._" ir.participants
      (ir.participants.flatMap participantLine ++ ['\n']) ++
    renderSection "Topics" "_None._" ir.topics (ir.topics.flatMap topicLines) ++
    renderSection "Decisions" "_None recorded._" ir.decisions
      (ir.decisions.flatMap decisionLines ++ ['\n']) ++
    writeln ("## ".toList ++ "Action Items".toList ++ ['\n'])

/-- What is written after the table and the empty line that ends it. -/
def afterTable (ir : MeetingIr) : Text :=
  trimEndBy (· == '\n')
    (renderSection "Open Questions" "_None._" ir.openQuestions
        (ir.openQuestions.flatMap questionLines ++ ['\n']) ++
      renderSection "Risks" "_None._" ir.risks (ir.risks.flatMap riskLines ++ ['\n'])) ++ ['\n']

/-- What the row of an item shows, in one line. -/
def shown (a : ActionItem) : List Text :=
  [oneLine (trim a.description), oneLine (trim (a.owner.getD "—".toList)), oneLine (trim (a.deadline.getD "—".toList)),
    statusLabel a.status]

/-- **The table is well-formed**: after the lines before it come the header, the delimiter row, a row for each item in
order whose cells are what the item says, and an empty line. -/
def TableWellFormed (ir : MeetingIr) (title : Text) : Prop :=
  ∃ rows : List Text,
    lines (renderWithTitle ir title) =
      lines (beforeTable ir title) ++ header :: delimiter :: rows ++ [] :: lines (afterTable ir) ∧
    List.Forall₂ (fun row item => cells row = shown item) rows ir.actionItems

/-- A text that a cell keeps: no carriage return inside, and no pipe that a backslash escapes. -/
def Keeps (s : Text) : Prop := '\r' ∉ trim s ∧ escapedPipes false (trim s) = 0

instance (s : Text) : Decidable (Keeps s) := inferInstanceAs (Decidable (_ ∧ _))

/-- The texts of an item are kept. -/
def Tabular (a : ActionItem) : Prop :=
  Keeps a.description ∧ Keeps (a.owner.getD "—".toList) ∧ Keeps (a.deadline.getD "—".toList)

instance (a : ActionItem) : Decidable (Tabular a) := inferInstanceAs (Decidable (_ ∧ _ ∧ _))

/-! ### Where the table stands -/

/-- **The document around the table of its action items.** -/
theorem renderWithTitle_table (ir : MeetingIr) (title : Text) (h : ir.actionItems ≠ []) :
    renderWithTitle ir title = beforeTable ir title ++
      (header ++ '\n' :: (delimiter ++ '\n' :: (ir.actionItems.flatMap actionRow ++ '\n' :: afterTable ir))) := by
  have hitems : ir.actionItems.isEmpty = false := by simpa using h
  have hsection (body : Text) : renderSection "Action Items" "_None._" ir.actionItems body =
      writeln ("## ".toList ++ "Action Items".toList ++ ['\n']) ++ body := by
    rw [renderSection, hitems]
    rfl
  have hlast (x : Text) : ∃ c ∈ renderSection "Open Questions" "_None._" ir.openQuestions
      (ir.openQuestions.flatMap questionLines ++ ['\n']) ++ x, (c == '\n') = false :=
    ⟨'#', List.mem_append_left _ List.mem_cons_self, by decide⟩
  have hbefore : renderWithTitle ir title = trimEndBy (· == '\n')
      (beforeTable ir title ++ (writeln header ++ writeln delimiter ++ ir.actionItems.flatMap actionRow ++ ['\n']) ++
        renderSection "Open Questions" "_None._" ir.openQuestions
          (ir.openQuestions.flatMap questionLines ++ ['\n']) ++
        renderSection "Risks" "_None._" ir.risks (ir.risks.flatMap riskLines ++ ['\n'])) ++ ['\n'] := by
    unfold renderWithTitle beforeTable
    rw [hsection, ← List.append_assoc _ (writeln ("## ".toList ++ "Action Items".toList ++ ['\n']))]
    rfl
  rw [hbefore, List.append_assoc _ (renderSection "Open Questions" _ _ _), trimEndBy_append (hlast _), afterTable]
  unfold writeln
  simp only [List.append_assoc, List.cons_append, List.nil_append]

/-- The texts of a row, before they are escaped. -/
def rowTexts (a : ActionItem) : List Text :=
  [replaceAll ['\n'] [' '] (trim a.description), replaceAll ['\n'] [' '] (trim (a.owner.getD "—".toList)),
    replaceAll ['\n'] [' '] (trim (a.deadline.getD "—".toList)), statusLabel a.status]

theorem cell_eq (s : Text) : cell s = escapePipes (replaceAll ['\n'] [' '] (trim s)) := by
  rw [cell, replaceAll_singleton]
  rfl

theorem escapePipes_statusLabel (s : ActionStatus) : escapePipes (statusLabel s) = statusLabel s := by
  cases s <;> decide

theorem actionRow_eq (a : ActionItem) : actionRow a = row ((rowTexts a).map escapePipes) ++ ['\n'] := by
  simp only [rowTexts, List.map_cons, List.map_nil, ← cell_eq, escapePipes_statusLabel]
  show writeln _ = _
  simp [writeln, row]

theorem lines_renderWithTitle (ir : MeetingIr) (title : Text) (h : ir.actionItems ≠ []) :
    lines (renderWithTitle ir title) = lines (beforeTable ir title) ++
      header :: delimiter :: (ir.actionItems.flatMap fun a => lines (actionRow a)) ++ [] :: lines (afterTable ir) := by
  obtain ⟨b, hb⟩ : ∃ b, beforeTable ir title = b ++ ['\n'] := by
    unfold beforeTable
    exact ⟨_, (List.append_assoc _ _ _).symm⟩
  have hrows : actionRow = fun a => row ((rowTexts a).map escapePipes) ++ ['\n'] := funext actionRow_eq
  have hheader : lines (header ++ ['\n']) = [header] := lines_writeln (by decide)
  have hdelimiter : lines (delimiter ++ ['\n']) = [delimiter] := lines_writeln (by decide)
  have hblank (s : Text) : lines ('\n' :: s) = [] :: lines s := rfl
  rw [renderWithTitle_table ir title h, hb, List.append_assoc, List.singleton_append, lines_append,
    lines_append (a := header), hheader, lines_append (a := delimiter), hdelimiter, hrows, lines_flatMap, hblank]
  simp only [List.append_assoc, List.cons_append, List.nil_append]

/-! ### The rows -/

section Rows
variable {s : Text}

theorem replaceAll_feed (s : Text) : replaceAll ['\n'] [' '] s = s.map fun c => if c = '\n' then ' ' else c := by
  rw [replaceAll_singleton, List.map_eq_flatMap]
  refine List.flatMap_congr fun c _ => ?_
  split_ifs <;> rfl

/-- White space around a text stays away from its one line. -/
theorem tight_trim (s : Text) : Tight (replaceAll ['\n'] [' '] (trim s)) := by
  have hshown {c : Char} (h : whiteSpace c = false) : blank (if c = '\n' then ' ' else c) = false := by
    have hfeed : c ≠ '\n' := by
      rintro rfl
      exact absurd h (by decide)
    rw [if_neg hfeed]
    by_contra hblank
    simp only [blank, Bool.not_eq_false, Bool.or_eq_true, beq_iff_eq] at hblank
    rcases hblank with rfl | rfl
    · exact absurd h (by decide)
    · exact absurd h (by decide)
  rw [replaceAll_feed]
  constructor
  · intro c hc
    rw [List.head?_map, Option.mem_def, Option.map_eq_some_iff] at hc
    obtain ⟨d, hd, rfl⟩ := hc
    exact hshown (head?_trimBy d hd)
  · intro c hc
    rw [List.getLast?_map, Option.mem_def, Option.map_eq_some_iff] at hc
    obtain ⟨d, hd, rfl⟩ := hc
    exact hshown (getLast?_trimBy d hd)

theorem escapedPipes_map (escaped : Bool) :
    escapedPipes escaped (s.map fun c => if c = '\n' then ' ' else c) = escapedPipes escaped s := by
  induction s generalizing escaped with
  | nil => rfl
  | cons c s ih =>
    rw [List.map_cons, escapedPipes, escapedPipes, ih]
    by_cases hc : c = '\n'
    · subst hc
      rfl
    · rw [if_neg hc]

theorem cr_mem_replaceAll : '\r' ∈ replaceAll ['\n'] [' '] s ↔ '\r' ∈ s := by
  rw [replaceAll_feed, List.mem_map]
  constructor
  · rintro ⟨c, hc, heq⟩
    by_cases hfeed : c = '\n'
    · rw [if_pos hfeed] at heq
      exact absurd heq (by decide)
    · rw [if_neg hfeed] at heq
      exact heq ▸ hc
  · exact fun h => ⟨'\r', h, rfl⟩

theorem feed_notMem_replaceAll : '\n' ∉ replaceAll ['\n'] [' '] s := by
  rw [replaceAll_feed, List.mem_map]
  rintro ⟨c, -, heq⟩
  by_cases hfeed : c = '\n'
  · rw [if_pos hfeed] at heq
    exact absurd heq (by decide)
  · rw [if_neg hfeed] at heq
    exact hfeed heq

/-- What a cell takes of a text, beside what it should show. -/
theorem replaceAll_trim (h : '\r' ∉ trim s) : replaceAll ['\n'] [' '] (trim s) = oneLine (trim s) := by
  rw [replaceAll_feed, oneLine_eq_map h]

theorem mem_escapePipes {c : Char} (hbar : c ≠ '|') (hesc : c ≠ '\\') : c ∈ escapePipes s ↔ c ∈ s := by
  rw [escapePipes, List.mem_flatMap]
  constructor
  · rintro ⟨d, hd, hc⟩
    split_ifs at hc with hd'
    · simp [hbar, hesc] at hc
    · rw [List.mem_singleton] at hc
      exact hc ▸ hd
  · intro hc
    refine ⟨c, hc, ?_⟩
    rw [if_neg hbar]
    exact List.mem_singleton_self c

theorem mem_row {c : Char} (ts : List Text) (hbar : c ≠ '|') (hesc : c ≠ '\\') (hblank : c ≠ ' ') :
    c ∈ row (ts.map escapePipes) ↔ ∃ t ∈ ts, c ∈ t := by
  rw [row, List.mem_cons, List.mem_flatMap]
  constructor
  · rintro (h | ⟨u, hu, hc⟩)
    · exact absurd h hbar
    · obtain ⟨t, ht, rfl⟩ := List.mem_map.mp hu
      refine ⟨t, ht, (mem_escapePipes hbar hesc).mp ?_⟩
      simpa [hbar, hblank] using hc
  · rintro ⟨t, ht, hc⟩
    refine Or.inr ⟨escapePipes t, List.mem_map_of_mem ht, ?_⟩
    have hc' := (mem_escapePipes hbar hesc).mpr hc
    simp [hc']

theorem getLast?_row (ts : List Text) : (row ts).getLast? = some '|' := by
  rcases List.eq_nil_or_concat ts with rfl | ⟨ts, t, rfl⟩
  · rfl
  · have hrow : row (ts.concat t) =
        '|' :: (ts.flatMap fun c => ' ' :: c ++ [' ', '|']) ++ ' ' :: t ++ [' '] ++ ['|'] := by
      simp [row]
    rw [hrow, List.getLast?_concat]

variable {a : ActionItem}

theorem feed_notMem_rowTexts : ∀ t ∈ rowTexts a, '\n' ∉ t := by
  intro t ht
  simp only [rowTexts, List.mem_cons, List.not_mem_nil, or_false] at ht
  rcases ht with rfl | rfl | rfl | rfl
  · exact feed_notMem_replaceAll
  · exact feed_notMem_replaceAll
  · exact feed_notMem_replaceAll
  · cases a.status <;> decide

theorem cr_mem_rowTexts : (∃ t ∈ rowTexts a, '\r' ∈ t) ↔
    '\r' ∈ trim a.description ∨ '\r' ∈ trim (a.owner.getD "—".toList) ∨ '\r' ∈ trim (a.deadline.getD "—".toList) := by
  have hstatus : '\r' ∉ statusLabel a.status := by cases a.status <;> decide
  simp only [rowTexts, List.exists_mem_cons_iff, List.not_mem_nil, false_and, exists_false, or_false, cr_mem_replaceAll,
    hstatus]

/-- The lines of a row: one, when no text of its item has a carriage return inside. -/
theorem length_lines_actionRow :
    (lines (actionRow a)).length = (row ((rowTexts a).map escapePipes)).count '\r' + 1 := by
  rw [actionRow_eq]
  refine length_lines_writeln ?_ ?_
  · rw [mem_row _ (by decide) (by decide) (by decide)]
    rintro ⟨t, ht, hc⟩
    exact feed_notMem_rowTexts t ht hc
  · rw [getLast?_row]
    decide

theorem lines_actionRow (h : '\r' ∉ row ((rowTexts a).map escapePipes)) :
    lines (actionRow a) = [row ((rowTexts a).map escapePipes)] := by
  rw [actionRow_eq]
  refine lines_writeln fun c hc => ?_
  simp only [lineEnd, Bool.or_eq_false_iff, beq_eq_false_iff_ne]
  constructor
  · rintro rfl
    rw [mem_row _ (by decide) (by decide) (by decide)] at hc
    obtain ⟨t, ht, hc⟩ := hc
    exact feed_notMem_rowTexts t ht hc
  · rintro rfl
    exact h hc

/-- The cells of a row are what its item says exactly when no text of it has a pipe escaped before. -/
theorem cells_actionRow (h : '\r' ∉ row ((rowTexts a).map escapePipes)) :
    cells (row ((rowTexts a).map escapePipes)) = shown a ↔ ∀ t ∈ rowTexts a, escapedPipes false t = 0 := by
  rw [mem_row _ (by decide) (by decide) (by decide), cr_mem_rowTexts, not_or, not_or] at h
  have hshown : shown a = rowTexts a := by
    rw [shown, rowTexts, replaceAll_trim h.1, replaceAll_trim h.2.1, replaceAll_trim h.2.2]
  constructor
  · intro heq
    have hlen := length_cells_row (rowTexts a)
    have hsum : ((rowTexts a).map (escapedPipes false)).sum = 0 := by
      rw [heq, hshown] at hlen
      omega
    exact fun t ht => List.sum_eq_zero_iff_forall_eq_nat.mp hsum _ (List.mem_map_of_mem ht)
  · intro hall
    rw [hshown]
    refine cells_row fun t ht => ⟨?_, hall t ht⟩
    simp only [rowTexts, List.mem_cons, List.not_mem_nil, or_false] at ht
    rcases ht with rfl | rfl | rfl | rfl
    · exact tight_trim _
    · exact tight_trim _
    · exact tight_trim _
    · have htrim : trimBy blank (statusLabel a.status) = statusLabel a.status := by cases a.status <;> decide
      rw [← htrim]
      exact ⟨head?_trimBy, getLast?_trimBy⟩

theorem tabular_iff : Tabular a ↔
    '\r' ∉ row ((rowTexts a).map escapePipes) ∧ ∀ t ∈ rowTexts a, escapedPipes false t = 0 := by
  have hstatus : escapedPipes false (statusLabel a.status) = 0 := by cases a.status <;> rfl
  rw [mem_row _ (by decide) (by decide) (by decide), cr_mem_rowTexts]
  simp only [rowTexts, List.forall_mem_cons, List.not_mem_nil, false_imp_iff, implies_true, and_true, hstatus,
    replaceAll_feed, escapedPipes_map, Tabular, Keeps, not_or]
  tauto

end Rows

section Pieces
variable {α β : Type} {f : α → List β} {xs : List α}

theorem length_le_flatMap (hpos : ∀ x ∈ xs, 1 ≤ (f x).length) : xs.length ≤ (xs.flatMap f).length := by
  induction xs with
  | nil => simp
  | cons x xs ih =>
    have hx := hpos x List.mem_cons_self
    have hxs := ih fun y hy => hpos y (List.mem_cons_of_mem _ hy)
    rw [List.flatMap_cons, List.length_append, List.length_cons]
    omega

/-- Pieces of at least one line each that make as many lines as there are pieces. -/
theorem length_eq_one_of_flatMap (hpos : ∀ x ∈ xs, 1 ≤ (f x).length) (h : (xs.flatMap f).length = xs.length) :
    ∀ x ∈ xs, (f x).length = 1 := by
  induction xs with
  | nil => simp
  | cons x xs ih =>
    have hx := hpos x List.mem_cons_self
    have hpos' : ∀ y ∈ xs, 1 ≤ (f y).length := fun y hy => hpos y (List.mem_cons_of_mem _ hy)
    have hle := length_le_flatMap hpos'
    rw [List.flatMap_cons, List.length_append, List.length_cons] at h
    intro y hy
    rcases List.mem_cons.mp hy with rfl | hy
    · omega
    · exact ih hpos' (by omega) y hy

end Pieces

/-- The lines of the rows, when each row is one. -/
theorem flatMap_lines {items : List ActionItem} (h : ∀ a ∈ items, '\r' ∉ row ((rowTexts a).map escapePipes)) :
    (items.flatMap fun a => lines (actionRow a)) = items.map fun a => row ((rowTexts a).map escapePipes) := by
  rw [List.map_eq_flatMap]
  exact List.flatMap_congr fun a ha => lines_actionRow (h a ha)

section Table
variable {ir : MeetingIr} {title : Text}

theorem tableWellFormed_rows (h : ir.actionItems ≠ []) : TableWellFormed ir title ↔
    List.Forall₂ (fun row item => cells row = shown item) (ir.actionItems.flatMap fun a => lines (actionRow a))
      ir.actionItems := by
  rw [TableWellFormed, lines_renderWithTitle ir title h]
  constructor
  · rintro ⟨rows, heq, hrows⟩
    have heq' := List.append_cancel_right heq
    simp only [List.append_cancel_left_eq, List.cons.injEq, true_and] at heq'
    rwa [heq']
  · exact fun hrows => ⟨_, rfl, hrows⟩

theorem cells_rows (h : ∀ a ∈ ir.actionItems, '\r' ∉ row ((rowTexts a).map escapePipes)) :
    List.Forall₂ (fun row item => cells row = shown item) (ir.actionItems.flatMap fun a => lines (actionRow a))
      ir.actionItems ↔ ∀ a ∈ ir.actionItems, ∀ t ∈ rowTexts a, escapedPipes false t = 0 := by
  rw [flatMap_lines h, List.forall₂_map_left_iff, List.forall₂_same]
  exact forall₂_congr fun a ha => cells_actionRow (h a ha)

theorem tabular_of_tableWellFormed (h : ir.actionItems ≠ []) (htable : TableWellFormed ir title) :
    ∀ a ∈ ir.actionItems, Tabular a := by
  have hrows := (tableWellFormed_rows h).mp htable
  have hone : ∀ a ∈ ir.actionItems, (lines (actionRow a)).length = 1 := by
    refine length_eq_one_of_flatMap (fun a _ => ?_) hrows.length_eq
    rw [length_lines_actionRow]
    omega
  have hcr : ∀ a ∈ ir.actionItems, '\r' ∉ row ((rowTexts a).map escapePipes) := by
    intro a ha
    have hlen := hone a ha
    rw [length_lines_actionRow] at hlen
    exact List.count_eq_zero.mp (by omega)
  exact fun a ha => tabular_iff.mpr ⟨hcr a ha, (cells_rows hcr).mp hrows a ha⟩

end Table

/-- **The table reads back as the action items exactly when every item is tabular**: `cell` takes neither the carriage
return nor the backslash before a pipe into account. -/
theorem tableWellFormed_iff (ir : MeetingIr) (title : Text) (h : ir.actionItems ≠ []) :
    TableWellFormed ir title ↔ ∀ a ∈ ir.actionItems, Tabular a := by
  constructor
  · exact tabular_of_tableWellFormed h
  · intro hall
    have hcr : ∀ a ∈ ir.actionItems, '\r' ∉ row ((rowTexts a).map escapePipes) :=
      fun a ha => (tabular_iff.mp (hall a ha)).1
    have hbars : ∀ a ∈ ir.actionItems, ∀ t ∈ rowTexts a, escapedPipes false t = 0 :=
      fun a ha => (tabular_iff.mp (hall a ha)).2
    exact (tableWellFormed_rows h).mpr ((cells_rows hcr).mpr hbars)

/-- An action to review a choice, written with a pipe. -/
theorem tableWellFormed_iff_piped :
    TableWellFormed { actionItems := [{ description := "Choose A | B\nfor launch".toList }] } "Meeting".toList :=
  (tableWellFormed_iff _ _ (by decide)).mpr (by decide)

/-- A pipe that the text escapes itself ends up behind two backslashes, and separates again. -/
theorem not_tableWellFormed_escaped :
    ¬ ∀ (ir : MeetingIr) (title : Text), ir.actionItems ≠ [] → TableWellFormed ir title := by
  intro h
  have hitems := tabular_of_tableWellFormed (by decide)
    (h { actionItems := [{ description := "grep a\\|b".toList }] } "Meeting".toList (by decide))
  exact absurd hitems (by decide)

end Notely.Engine.ActionTable
