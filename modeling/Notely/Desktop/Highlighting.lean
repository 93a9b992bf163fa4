import Notely.Desktop.AskState
import Notely.Lib.Regexes

/-! # Markdown highlighted in place

`MarkdownHighlightingController` of `features/editor/markdown_highlighter.dart`: the text of the editor as spans, each
with a style. The styles are named by what they are for.

* `spansForLine_texts`, `inlineSpans_texts`: the spans of a line make up the line.
* `buildTextSpan_texts`: the spans make up the text. -/

namespace Notely.Desktop.Highlighting

open Notely.Lib.Strings Notely.Lib.Regexes
open Notely.Desktop.AskState (regexSpace)

/-! ### The expressions -/

/-- `.` of a `RegExp`. -/
def dot (c : Char) : Bool := c != '\n' && c != '\r' && c != '\u2028' && c != '\u2029'

/-- A character of an expression. -/
def char (c : Char) : Regex := .one (· == c)

/-- `_heading`: `^(#{1,6})(.*)$`. -/
def heading : Regex := .seq (.group 1 (.many (· == '#') 1 (some 6))) (.seq (.group 2 (.many dot 0 none)) .stop)

/-- `_quote`: `^(\s*>)(.*)$`. -/
def quote : Regex :=
  .seq (.group 1 (.seq (.many regexSpace 0 none) (char '>'))) (.seq (.group 2 (.many dot 0 none)) .stop)

/-- `\[[ xX]\]\s+`. -/
def box : Regex :=
  .seq (char '[') (.seq (.one fun c => c == ' ' || c == 'x' || c == 'X') (.seq (char ']') (.many regexSpace 1 none)))

/-- `_listItem`: `^(\s*)([-*+])(\s+)(\[[ xX]\]\s+)?(.*)$`. -/
def listItem : Regex :=
  .seq (.group 1 (.many regexSpace 0 none)) (.seq (.group 2 (.one fun c => c == '-' || c == '*' || c == '+'))
    (.seq (.group 3 (.many regexSpace 1 none)) (.seq (.opt (.group 4 box)) (.seq (.group 5 (.many dot 0 none)) .stop))))

/-- `_inline`: `` (`[^`]+`)|(\*\*[^*]+\*\*)|(\*[^*]+\*)|(_[^_]+_) ``. -/
def inlineToken : Regex :=
  .alt (.group 1 (.seq (char '\x60') (.seq (.many (· != '\x60') 1 none) (char '\x60'))))
    (.alt (.group 2 (.seq (char '*') (.seq (char '*') (.seq (.many (· != '*') 1 none) (.seq (char '*') (char '*'))))))
      (.alt (.group 3 (.seq (char '*') (.seq (.many (· != '*') 1 none) (char '*'))))
        (.group 4 (.seq (char '_') (.seq (.many (· != '_') 1 none) (char '_'))))))

/-! ### The spans -/

/-- What a span is painted as. -/
inductive Style
  | base
  | marker
  | heading (level : ℕ)
  | hashes (level : ℕ)
  | quote
  | bullet
  | box (checked : Bool)
  | done
  | code (style : Style)
  | bold (style : Style)
  | italic (style : Style)
  deriving DecidableEq

/-- `TextSpan`. -/
structure Span where
  text : Text
  style : Style
  deriving DecidableEq

/-- A group of a match, or the empty text. -/
def capture (i : ℕ) (w : Way) : Text := (w.captures.lookup i).getD []

/-- The style of an inline token. -/
def tokenStyle (token : Text) (style : Style) : Style :=
  if ['\x60'].isPrefixOf token then .code style
  else if ['*', '*'].isPrefixOf token then .bold style
  else .italic style

/-- The loop of `_inlineSpans`, from an index on. -/
def inlineFrom (line : Text) (style : Style) : ℕ → List Found → List Span
  | index, [] => if index < line.length then [⟨line.drop index, style⟩] else []
  | index, m :: ms =>
    (if m.start > index then [⟨(line.take m.start).drop index, style⟩] else []) ++
      ⟨m.text, tokenStyle m.text style⟩ :: inlineFrom line style m.stop ms

/-- `_inlineSpans`. -/
def inlineSpans (line : Text) (style : Style) : List Span :=
  if line.isEmpty then [⟨line, style⟩] else inlineFrom line style 0 (allMatches inlineToken line)

/-- `_spansForLine`. -/
def spansForLine (line : Text) (isFirst : Bool) : List Span :=
  if isFirst then
    match heading.first line with
    | some m => [⟨capture 1 m, .hashes 1⟩, ⟨capture 2 m, .heading 1⟩]
    | none => [⟨line, .heading 1⟩]
  else
    match heading.first line with
    | some m => [⟨capture 1 m, .hashes (capture 1 m).length⟩, ⟨capture 2 m, .heading (capture 1 m).length⟩]
    | none =>
      match quote.first line with
      | some m => [⟨capture 1 m, .marker⟩, ⟨capture 2 m, .quote⟩]
      | none =>
        match listItem.first line with
        | some m =>
          let box := m.captures.lookup 4
          let checked := box.any fun box => box.contains 'x' || box.contains 'X'
          [⟨capture 1 m, .base⟩, ⟨capture 2 m, .bullet⟩, ⟨capture 3 m, .base⟩] ++
            (box.map fun box => ⟨box, .box checked⟩).toList ++
            inlineSpans (capture 5 m) (if checked then .done else .base)
        | none => inlineSpans line .base

/-- The spans of the lines, from a line on. -/
def spansFrom : Bool → List Text → List Span
  | _, [] => []
  | isFirst, [line] => spansForLine line isFirst
  | isFirst, line :: lines => spansForLine line isFirst ++ ⟨['\n'], .base⟩ :: spansFrom false lines

/-- `buildTextSpan`. -/
def buildTextSpan (text : Text) : List Span := spansFrom true (text.splitOn '\n')

/-! ### What the groups of an expression captured -/

section Captures
variable {line : Text} {w : Way} {p : Char → Bool} {i j : ℕ} {r : Regex}

/-- The last group of an expression, up to the end of the line. -/
theorem ways_last (h : w ∈ ((Regex.group i (.many p 0 none)).seq .stop).ways line) :
    w.captures = [(i, line)] := by
  obtain ⟨a, rest, hline, v, hv, rfl⟩ := mem_ways_group_seq rfl h
  obtain ⟨hrest, rfl⟩ := mem_ways_stop.mp hv
  rw [hline, hrest, List.append_nil]

/-- Two groups that take the whole line. -/
theorem first_twoGroups (hr : r.plain = true)
    (h : ((r.group i).seq ((Regex.group j (.many p 0 none)).seq .stop)).first line = some w) :
    ∃ a b, w.captures = [(i, a), (j, b)] ∧ a ++ b = line := by
  obtain ⟨a, b, hline, v, hv, rfl⟩ := mem_ways_group_seq hr (List.mem_of_mem_head? h)
  exact ⟨a, b, by rw [ways_last hv], hline.symm⟩

/-- The groups of a list item: the box is there or is not. -/
theorem first_listItem (h : listItem.first line = some w) : ∃ indent bullet space rest,
    (w.captures = [(1, indent), (2, bullet), (3, space), (5, rest)] ∧ indent ++ bullet ++ space ++ rest = line) ∨
      ∃ box, w.captures = [(1, indent), (2, bullet), (3, space), (4, box), (5, rest)] ∧
        indent ++ bullet ++ space ++ box ++ rest = line := by
  obtain ⟨indent, line₁, rfl, w₁, hw₁, rfl⟩ := mem_ways_group_seq rfl (List.mem_of_mem_head? h)
  obtain ⟨bullet, line₂, rfl, w₂, hw₂, rfl⟩ := mem_ways_group_seq rfl hw₁
  obtain ⟨space, line₃, rfl, w₃, hw₃, rfl⟩ := mem_ways_group_seq rfl hw₂
  obtain ⟨u, hu, v, hv, rfl⟩ := mem_ways_seq.mp hw₃
  have hrest := ways_last hv
  rcases mem_ways_opt.mp hu with hbox | rfl
  · obtain ⟨u, hu', rfl⟩ := mem_ways_group.mp hbox
    have happend : u.matched ++ u.rest = line₃ := ways_append hu'
    refine ⟨indent, bullet, space, u.rest, .inr ⟨u.matched, ?_, ?_⟩⟩
    · simp only [hrest, captures_of_plain rfl hu', List.cons_append, List.nil_append]
    · simp only [List.append_assoc, happend]
  · refine ⟨indent, bullet, space, line₃, .inl ⟨?_, ?_⟩⟩
    · simp only [hrest, List.nil_append]
    · simp only [List.append_assoc]

end Captures

/-! ### The texts of the spans -/

/-- The texts of the spans, one after the other. -/
def texts (spans : List Span) : Text := (spans.map Span.text).flatten

section Texts
variable {line : Text} {style : Style}

@[simp] theorem texts_nil : texts [] = [] := rfl

@[simp] theorem texts_cons (span : Span) (spans : List Span) : texts (span :: spans) = span.text ++ texts spans := rfl

@[simp] theorem texts_append (spans spans' : List Span) : texts (spans ++ spans') = texts spans ++ texts spans' := by
  rw [texts, List.map_append, List.flatten_append]
  rfl

/-- From an index on, the loop gives the rest of the line: matches and the gaps between them. -/
theorem texts_inlineFrom {index : ℕ} {ms : List Found} (h : Placed line index ms) :
    texts (inlineFrom line style index ms) = line.drop index := by
  induction ms generalizing index with
  | nil =>
    rw [inlineFrom]
    split_ifs with hlen
    · exact List.append_nil _
    · exact (List.drop_eq_nil_of_le (Nat.le_of_not_lt hlen)).symm
  | cons m ms ih =>
    obtain ⟨hle, ⟨rest, hrest⟩, hms⟩ := h
    have hgap : texts (if m.start > index then [⟨(line.take m.start).drop index, style⟩] else []) =
        (line.take m.start).drop index := by
      split_ifs with hgt
      · exact List.append_nil _
      · exact (List.drop_eq_nil_of_le ((List.length_take_le _ _).trans (Nat.le_of_not_lt hgt))).symm
    have hstop : m.text ++ line.drop m.stop = line.drop m.start := by
      rw [Found.stop, ← List.drop_drop, hrest, List.drop_left]
    calc texts (inlineFrom line style index (m :: ms))
        = (line.take m.start).drop index ++ (m.text ++ line.drop m.stop) := by
          rw [inlineFrom, texts_append, hgap, texts_cons, ih hms]
      _ = (line.take m.start).drop index ++ line.drop m.start := by rw [hstop]
      _ = line.drop index := by
          rw [List.drop_take]
          have hdrop : line.drop m.start = (line.drop index).drop (m.start - index) := by
            rw [List.drop_drop, Nat.add_sub_cancel' hle]
          rw [hdrop, List.take_append_drop]

theorem inlineSpans_texts (line : Text) (style : Style) : texts (inlineSpans line style) = line := by
  rw [inlineSpans]
  split_ifs with h
  · exact List.append_nil _
  · exact texts_inlineFrom (placed_allMatches inlineToken line)

theorem spansForLine_texts (line : Text) (isFirst : Bool) : texts (spansForLine line isFirst) = line := by
  rw [spansForLine]
  split_ifs with hfirst
  · split
    next m hm =>
      obtain ⟨a, b, hc, hline⟩ := first_twoGroups rfl hm
      simpa [capture, hc, List.lookup_cons] using hline
    next => exact List.append_nil _
  · split
    next m hm =>
      obtain ⟨a, b, hc, hline⟩ := first_twoGroups rfl hm
      simpa [capture, hc, List.lookup_cons] using hline
    next =>
      split
      next m hm =>
        obtain ⟨a, b, hc, hline⟩ := first_twoGroups rfl hm
        simpa [capture, hc, List.lookup_cons] using hline
      next =>
        split
        next m hm =>
          obtain ⟨indent, bullet, space, rest, ⟨hc, hline⟩ | ⟨box, hc, hline⟩⟩ := first_listItem hm
          · simpa [capture, hc, List.lookup_cons, inlineSpans_texts] using hline
          · simpa [capture, hc, List.lookup_cons, inlineSpans_texts] using hline
        next => exact inlineSpans_texts line .base

/-- The spans of the lines give the lines with their breaks. -/
theorem spansFrom_texts (isFirst : Bool) (lines : List Text) :
    texts (spansFrom isFirst lines) = ['\n'].intercalate lines := by
  fun_induction spansFrom isFirst lines with
  | case1 => rfl
  | case2 isFirst line => simp [spansForLine_texts, List.intercalate]
  | case3 isFirst line lines hne ih =>
    obtain ⟨line', lines, rfl⟩ : ∃ line' lines', lines = line' :: lines' := by
      cases lines with
      | nil => exact absurd rfl hne
      | cons line' lines' => exact ⟨line', lines', rfl⟩
    rw [texts_append, spansForLine_texts, texts_cons, ih]
    simp [List.intercalate, List.intersperse]

end Texts

/-- **Highlighting neither hides nor rewrites a character: the texts of the spans, in order, are the text.** -/
theorem buildTextSpan_texts (text : Text) : ((buildTextSpan text).map Span.text).flatten = text := by
  have h := spansFrom_texts true (text.splitOn '\n')
  rw [List.intercalate_splitOn] at h
  exact h

end Notely.Desktop.Highlighting
