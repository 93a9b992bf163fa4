import Notely.Lib.Strings
import Mathlib.Algebra.Ring.Nat

/-! # Lines, headings and table cells of a Markdown text

A reader's view of a Markdown text, of the parts of its grammar that are decided line by line.

* `lines`: a line ends at LF, CR or CRLF. `lines_append`: what is written after a line feed starts a line.
* `headings`: the lines that start with one or two number signs and a blank. `headings_eq_nil_iff`: there is none when
  the text neither starts with such a marker nor has one right after a line ending (`opens`).
* `cells`: the cells of a table row; a pipe separates unless a backslash escapes it. `cells_row`: texts that went
  through `escapePipes` come back, if no pipe of theirs was escaped before (`escapedPipes`). -/

namespace Notely.Lib.Commonmark

open Notely.Lib.Strings

/-! ### Lines -/

/-- A character put before the first of the pieces. -/
def extend (c : Char) : List Text → List Text
  | [] => [[c]]
  | p :: ps => (c :: p) :: ps

/-- The lines of a text. -/
def lines : Text → List Text
  | [] => []
  | c :: s =>
    if c = '\n' ∨ c = '\r' ∧ s.head? ≠ some '\n' then [] :: lines s
    -- the line feed after it ends the line
    else if c = '\r' then lines s
    else extend c (lines s)

/-- A character that ends a line. -/
def lineEnd (c : Char) : Bool := c == '\n' || c == '\r'

/-- The text has no line ending. -/
def Unbroken (s : Text) : Prop := ∀ c ∈ s, lineEnd c = false

instance : DecidablePred Unbroken := fun s => List.decidableBAll (lineEnd · = false) s

/-- The text in one line: its line endings as blanks. -/
def oneLine : Text → Text
  | [] => []
  | c :: s =>
    if c = '\n' ∨ c = '\r' ∧ s.head? ≠ some '\n' then ' ' :: oneLine s
    else if c = '\r' then oneLine s
    else c :: oneLine s

theorem extend_append {c : Char} {ps qs : List Text} (h : ps ≠ []) : extend c (ps ++ qs) = extend c ps ++ qs := by
  cases ps with
  | nil => exact absurd rfl h
  | cons p ps => rfl

theorem length_extend {c : Char} {ps : List Text} (h : ps ≠ []) : (extend c ps).length = ps.length := by
  cases ps with
  | nil => exact absurd rfl h
  | cons p ps => rfl

theorem extend_ne_nil (c : Char) (ps : List Text) : extend c ps ≠ [] := by
  cases ps <;> simp [extend]

section Lines
variable {a s : Text}

theorem head?_append_feed : (a ++ '\n' :: s).head? = (a ++ ['\n']).head? := by
  cases a <;> rfl

theorem lines_feed_ne_nil : lines (a ++ ['\n']) ≠ [] := by
  induction a with
  | nil => simp [lines]
  | cons c a ih =>
    rw [List.cons_append, lines]
    split_ifs with hend hcr
    · exact List.cons_ne_nil _ _
    · exact ih
    · exact extend_ne_nil _ _

/-- **After a line feed a line starts.** -/
theorem lines_append : lines (a ++ '\n' :: s) = lines (a ++ ['\n']) ++ lines s := by
  induction a with
  | nil => simp [lines]
  | cons c a ih =>
    rw [List.cons_append, List.cons_append, lines, lines, head?_append_feed, ih]
    split_ifs with hend hcr
    · rfl
    · rfl
    · exact extend_append lines_feed_ne_nil

theorem lines_writeln (h : Unbroken a) : lines (a ++ ['\n']) = [a] := by
  induction a with
  | nil => simp [lines]
  | cons c a ih =>
    have hc := h c List.mem_cons_self
    simp only [lineEnd, Bool.or_eq_false_iff, beq_eq_false_iff_ne] at hc
    rw [List.cons_append, lines, ih fun d hd => h d (List.mem_cons_of_mem _ hd), if_neg (by tauto), if_neg hc.2]
    rfl

/-- Every carriage return inside of a text without line feeds ends a line of its own. -/
theorem length_lines_writeln (hfeed : '\n' ∉ a) (hlast : a.getLast? ≠ some '\r') :
    (lines (a ++ ['\n'])).length = a.count '\r' + 1 := by
  induction a with
  | nil => simp [lines]
  | cons c a ih =>
    have hc : c ≠ '\n' := fun h => hfeed (h ▸ List.mem_cons_self)
    have hfeed' : '\n' ∉ a := fun h => hfeed (List.mem_cons_of_mem _ h)
    by_cases hcr : c = '\r'
    · subst hcr
      cases a with
      | nil => exact absurd rfl hlast
      | cons d a =>
        have hd : d ≠ '\n' := fun h => hfeed' (h ▸ List.mem_cons_self)
        have hnext : (d :: a ++ ['\n']).head? ≠ some '\n' := by simpa using hd
        rw [List.cons_append, lines, if_pos (Or.inr ⟨rfl, hnext⟩), List.length_cons,
          ih hfeed' (by rwa [List.getLast?_cons_cons] at hlast), List.count_cons_self]
    · have hlast' : a.getLast? ≠ some '\r' := by
        cases a with
        | nil => simp
        | cons d a => rwa [List.getLast?_cons_cons] at hlast
      rw [List.cons_append, lines, if_neg (by tauto), if_neg hcr, length_extend lines_feed_ne_nil, ih hfeed' hlast',
        List.count_cons_of_ne hcr]

/-- Without carriage returns only the line feeds become blanks. -/
theorem oneLine_eq_map (h : '\r' ∉ s) : oneLine s = s.map fun c => if c = '\n' then ' ' else c := by
  induction s with
  | nil => rfl
  | cons c s ih =>
    have hc : c ≠ '\r' := fun h' => h (h' ▸ List.mem_cons_self)
    rw [oneLine, ih fun h' => h (List.mem_cons_of_mem _ h'), List.map_cons]
    by_cases hfeed : c = '\n'
    · rw [if_pos (Or.inl hfeed), if_pos hfeed]
    · rw [if_neg (by tauto), if_neg hc, if_neg hfeed]

/-- The lines of texts written one after the other. -/
theorem lines_flatMap {α : Type} (xs : List α) (f : α → Text) :
    lines (xs.flatMap (fun x => f x ++ ['\n']) ++ s) = xs.flatMap (fun x => lines (f x ++ ['\n'])) ++ lines s := by
  induction xs with
  | nil => rfl
  | cons x xs ih =>
    rw [List.flatMap_cons, List.flatMap_cons, List.append_assoc, List.append_assoc, List.append_assoc, ← ih]
    exact lines_append

end Lines

/-! ### Headings -/

/-- The text starts with the marker of a heading of the first or second level. -/
def marked (s : Text) : Bool := "# ".toList.isPrefixOf s || "## ".toList.isPrefixOf s

/-- The headings of the first and second level. -/
def headings (s : Text) : List Text := (lines s).filter marked

/-- A line after the first one starts with such a marker. -/
def opens : Text → Bool
  | [] => false
  | c :: s => lineEnd c && marked s || opens s

section Headings
variable {a b s : Text} {c : Char}

theorem headings_append : headings (a ++ '\n' :: s) = headings (a ++ ['\n']) ++ headings s := by
  rw [headings, lines_append, List.filter_append]
  rfl

theorem marked_cons_of_ne (h : c ≠ '#') : marked (c :: s) = false := by
  have h' : ('#' == c) = false := by simpa using h.symm
  show (('#' == c && _) || ('#' == c && _)) = false
  rw [h', Bool.false_and, Bool.false_and, Bool.or_false]

/-- The first line of a text. -/
def firstLine (s : Text) : Text := s.takeWhile (! lineEnd ·)

/-- The marker of the first line is that of the text. -/
theorem marked_firstLine : marked (firstLine s) = marked s := by
  have hprefix {w : Text} (hw : Unbroken w) : w <+: firstLine s ↔ w <+: s := by
    constructor
    · exact fun h => h.trans (List.takeWhile_prefix _)
    · rintro ⟨t, rfl⟩
      rw [firstLine, List.takeWhile_append_of_pos fun d hd => by rw [hw d hd]; rfl]
      exact List.prefix_append _ _
  have hone : "# ".toList <+: firstLine s ↔ "# ".toList <+: s := hprefix (by decide)
  have htwo : "## ".toList <+: firstLine s ↔ "## ".toList <+: s := hprefix (by decide)
  rw [marked, marked, Bool.eq_iff_iff, Bool.or_eq_true, Bool.or_eq_true, List.isPrefixOf_iff_prefix,
    List.isPrefixOf_iff_prefix, List.isPrefixOf_iff_prefix, List.isPrefixOf_iff_prefix, hone, htwo]

/-- The first line of a text, and what the text opens in the other ones. -/
theorem lines_cases (h : s ≠ []) : ∃ ls, lines s = firstLine s :: ls ∧ ls.any marked = opens s := by
  have hends {t : Text} {c : Char} (hc : lineEnd c = true) : firstLine (c :: t) = [] := by
    rw [firstLine, List.takeWhile_cons_of_neg (by simp [hc])]
  induction s with
  | nil => exact absurd rfl h
  | cons c s ih =>
    -- what the lines after the first one open, when the first one ends here
    have hrest : (lines s).any marked = (marked s || opens s) := by
      cases s with
      | nil => decide
      | cons d s =>
        obtain ⟨ls, hlines, hopens⟩ := ih (List.cons_ne_nil _ _)
        rw [hlines, List.any_cons, marked_firstLine, hopens]
    rw [lines, opens]
    by_cases hfeed : c = '\n' ∨ c = '\r' ∧ s.head? ≠ some '\n'
    · have hc : lineEnd c = true := by
        rcases hfeed with rfl | ⟨rfl, -⟩ <;> rfl
      rw [if_pos hfeed, hc, Bool.true_and, hends hc]
      exact ⟨lines s, rfl, hrest⟩
    · rw [if_neg hfeed]
      by_cases hcr : c = '\r'
      · obtain ⟨t, rfl⟩ : ∃ t, s = '\n' :: t := List.head?_eq_some_iff.mp (by tauto)
        obtain ⟨ls, hlines, hopens⟩ := ih (List.cons_ne_nil _ _)
        rw [if_pos hcr, marked_cons_of_ne (by decide), Bool.and_false, Bool.false_or, hlines, hends (by decide),
          hends (by rw [hcr]; decide)]
        exact ⟨ls, rfl, hopens⟩
      · have hc : lineEnd c = false := by
          simp only [lineEnd, Bool.or_eq_false_iff, beq_eq_false_iff_ne]
          tauto
        have hfirst : firstLine (c :: s) = c :: firstLine s := by
          rw [firstLine, List.takeWhile_cons_of_pos (by rw [hc]; rfl)]
          rfl
        rw [if_neg hcr, hc, Bool.false_and, Bool.false_or, hfirst]
        cases s with
        | nil => exact ⟨[], rfl, rfl⟩
        | cons d s =>
          obtain ⟨ls, hlines, hopens⟩ := ih (List.cons_ne_nil _ _)
          rw [hlines]
          exact ⟨ls, rfl, hopens⟩

/-- The headings after the first line. -/
theorem headings_cases (h : s ≠ []) : ∃ hs, (hs = [] ↔ opens s = false) ∧
    headings s = if marked s then firstLine s :: hs else hs := by
  obtain ⟨ls, hlines, hopens⟩ := lines_cases h
  refine ⟨ls.filter marked, ?_, ?_⟩
  · rw [← hopens, List.any_eq_false, List.filter_eq_nil_iff]
  · rw [headings, hlines, List.filter_cons, marked_firstLine]

/-- **No heading: neither at the start of the text nor after a line ending.** -/
theorem headings_eq_nil_iff : headings s = [] ↔ marked s = false ∧ opens s = false := by
  by_cases h : s = []
  · subst h
    decide
  · obtain ⟨hs, hnil, heq⟩ := headings_cases h
    rw [heq]
    by_cases hm : marked s
    · simp [hm]
    · simp [hm, hnil]

/-- A first line with a marker of its own, and nothing after it. -/
theorem headings_line {l : Text} (hl : marked l = true) (h : Unbroken l) :
    headings (l ++ ['\n']) = [l] := by
  rw [headings, lines_writeln h, List.filter_cons, if_pos hl]
  rfl

/-- A marker does not reach across a character that is no number sign. -/
theorem marked_append (h : c ≠ '#') : marked (s ++ c :: b) = marked (s ++ [c]) := by
  rcases s with _ | ⟨x, _ | ⟨y, s⟩⟩
  · rw [List.nil_append, List.nil_append, marked_cons_of_ne h, marked_cons_of_ne h]
  · have h' : ('#' == c) = false := by simpa using h.symm
    simp [marked, List.isPrefixOf, h']
  · rcases s with _ | ⟨z, s⟩
    · simp [marked, List.isPrefixOf]
    · simp [marked, List.isPrefixOf]

theorem opens_append (h : c ≠ '#') : opens (a ++ c :: b) = (opens (a ++ [c]) || opens (c :: b)) := by
  induction a with
  | nil =>
    have hnil : opens [c] = false := by
      rw [opens, opens, Bool.or_false, Bool.and_eq_false_iff]
      exact Or.inr (by decide)
    rw [List.nil_append, List.nil_append, hnil, Bool.false_or]
  | cons d a ih =>
    rw [List.cons_append, List.cons_append, opens, opens, ih, marked_append h, Bool.or_assoc]

/-- A marker does not end in a character that is neither a number sign nor a blank. -/
theorem marked_snoc (h : c ≠ '#') (hblank : c ≠ ' ') : marked (s ++ [c]) = marked s := by
  have h' : ('#' == c) = false := by simpa using h.symm
  have hb' : (' ' == c) = false := by simpa using hblank.symm
  rcases s with _ | ⟨x, _ | ⟨y, _ | ⟨z, s⟩⟩⟩ <;> simp [marked, List.isPrefixOf, h', hb']

theorem opens_snoc (h : c ≠ '#') (hblank : c ≠ ' ') : opens (a ++ [c]) = opens a := by
  induction a with
  | nil =>
    have hnil : (lineEnd c && marked []) = false := by
      rw [Bool.and_eq_false_iff]
      exact Or.inr (by decide)
    show (lineEnd c && marked [] || false) = false
    rw [hnil]
    rfl
  | cons d a ih => rw [List.cons_append, opens, opens, ih, marked_snoc h hblank]

/-- What follows a character that ends no line. -/
theorem opens_cons (h : lineEnd c = false) : opens (c :: s) = opens s := by
  rw [opens, h, Bool.false_and, Bool.false_or]

/-- A text of whole lines. -/
def Whole (s : Text) : Prop := s = [] ∨ ∃ a, s = a ++ ['\n']

theorem Whole.headings_append (h : Whole a) : headings (a ++ b) = headings a ++ headings b := by
  rcases h with rfl | ⟨a, rfl⟩
  · rfl
  · rw [List.append_assoc]
    exact Commonmark.headings_append

theorem Whole.append (ha : Whole a) (hb : Whole b) : Whole (a ++ b) := by
  rcases hb with rfl | ⟨b, rfl⟩
  · rwa [List.append_nil]
  · exact Or.inr ⟨a ++ b, (List.append_assoc _ _ _).symm⟩

theorem Whole.flatMap {α : Type} {xs : List α} {f : α → Text} (h : ∀ x ∈ xs, Whole (f x)) : Whole (xs.flatMap f) := by
  induction xs with
  | nil => exact Or.inl rfl
  | cons x xs ih =>
    rw [List.flatMap_cons]
    exact (h x List.mem_cons_self).append (ih fun y hy => h y (List.mem_cons_of_mem _ hy))

/-- Texts written one after the other have no heading when none of them has one. -/
theorem headings_flatMap_eq_nil {α : Type} {xs : List α} {f : α → Text} (h : ∀ x ∈ xs, Whole (f x)) :
    headings (xs.flatMap f) = [] ↔ ∀ x ∈ xs, headings (f x) = [] := by
  induction xs with
  | nil => simp [headings, lines]
  | cons x xs ih =>
    rw [List.flatMap_cons, (h x List.mem_cons_self).headings_append, List.append_eq_nil_iff,
      ih fun y hy => h y (List.mem_cons_of_mem _ hy), List.forall_mem_cons]

theorem headings_writeln_eq_nil : headings (s ++ ['\n']) = [] ↔ marked s = false ∧ opens s = false := by
  rw [headings_eq_nil_iff, marked_snoc (by decide) (by decide), opens_snoc (by decide) (by decide)]

/-- A text whose first line has a marker. -/
theorem headings_writeln (h : marked s = true) :
    ∃ hs, (hs = [] ↔ opens s = false) ∧ headings (s ++ ['\n']) = firstLine s :: hs := by
  obtain ⟨hs, hnil, heq⟩ := headings_cases (s := s ++ ['\n']) (by simp)
  have hfirst : firstLine (s ++ ['\n']) = firstLine s := by
    rw [firstLine, List.takeWhile_append]
    split_ifs with hall
    · rw [List.takeWhile_cons_of_neg (by decide), List.append_nil, firstLine,
        (List.takeWhile_prefix _).eq_of_length hall]
    · rfl
  rw [marked_snoc (by decide) (by decide), if_pos h, hfirst] at heq
  rw [opens_snoc (by decide) (by decide)] at hnil
  exact ⟨hs, hnil, heq⟩

/-- Line feeds at the end are no headings. -/
theorem headings_trimEnd :
    headings (trimEndBy (· == '\n') (s ++ ['\n']) ++ ['\n']) = headings (s ++ ['\n']) := by
  rw [trimEndBy, List.rdropWhile_concat_pos _ _ _ (by decide)]
  induction s using List.reverseRecOn with
  | nil => rfl
  | append_singleton s c ih =>
    by_cases hc : c = '\n'
    · subst hc
      have hblank : headings (s ++ ['\n'] ++ ['\n']) = headings (s ++ ['\n']) ++ headings ['\n'] := by
        rw [List.append_assoc]
        exact headings_append
      have hnone : headings ['\n'] = [] := by decide
      rw [List.rdropWhile_concat_pos _ _ _ (by decide), ih, hblank, hnone, List.append_nil]
    · rw [List.rdropWhile_concat_neg _ _ _ (by simpa using hc)]

end Headings

/-! ### Cells -/

/-- The pieces of a line between the pipes that no backslash escapes. -/
def pieces : Bool → Text → List Text
  | _, [] => [[]]
  | escaped, c :: s =>
    if c = '|' ∧ ! escaped then [] :: pieces false s else extend c (pieces (c == '\\' && ! escaped) s)

/-- A blank of a row. -/
def blank (c : Char) : Bool := c == ' ' || c == '\t'

/-- The pieces without an empty first one. -/
def dropEmpty : List Text → List Text
  | [] => []
  | p :: ps => if p.all blank then ps else p :: ps

/-- The text with its escaped pipes as pipes. -/
def unescape : Text → Text
  | [] => []
  | c :: s => if c = '\\' ∧ s.head? = some '|' then unescape s else c :: unescape s

/-- **The cells of a row**, without the blanks around them: a pipe at either end of the row only bounds them. -/
def cells (row : Text) : List Text :=
  ((dropEmpty (dropEmpty (pieces false row)).reverse).reverse).map fun p => unescape (trimBy blank p)

/-- A backslash put before every pipe. -/
def escapePipes (s : Text) : Text := s.flatMap fun c => if c = '|' then ['\\', '|'] else [c]

/-- How many pipes of the text come after a backslash that is not escaped itself. -/
def escapedPipes : Bool → Text → ℕ
  | _, [] => 0
  | escaped, c :: s => (if c = '|' ∧ escaped then 1 else 0) + escapedPipes (c == '\\' && ! escaped) s

section Cells
variable {a b s : Text} {c : Char}

theorem unescape_escapePipes : unescape (escapePipes s) = s := by
  have hhead (s : Text) : (escapePipes s).head? ≠ some '|' := by
    cases s with
    | nil => simp [escapePipes]
    | cons c s =>
      rw [escapePipes, List.flatMap_cons]
      split_ifs with h
      · simp
      · simpa using h
  induction s with
  | nil => rfl
  | cons c s ih =>
    rw [escapePipes, List.flatMap_cons, ← escapePipes]
    split_ifs with h
    · rw [List.cons_append, List.cons_append, List.nil_append, unescape, if_pos ⟨rfl, rfl⟩, unescape,
        if_neg fun h' => absurd h'.1 (by decide), ih, h]
    · rw [List.cons_append, List.nil_append, unescape, if_neg fun h' => hhead s h'.2, ih]

/-- The pieces of a text with its pipes escaped: a pipe escaped before separates. -/
theorem pieces_escapePipes {p : Text} {ps : List Text} (hb : pieces false b = p :: ps) (escaped : Bool) :
    ∃ front last, pieces escaped (escapePipes s ++ ' ' :: b) = front ++ (last ++ ' ' :: p) :: ps ∧
      front.length = escapedPipes escaped s ∧ (front = [] → last = escapePipes s) := by
  induction s generalizing escaped with
  | nil =>
    refine ⟨[], [], ?_, rfl, fun _ => rfl⟩
    show pieces escaped (' ' :: b) = _
    rw [pieces, if_neg fun h => absurd h.1 (by decide), show (' ' == '\\' && ! escaped) = false by rfl, hb]
    rfl
  | cons c s ih =>
    rw [escapePipes, List.flatMap_cons, ← escapePipes, escapedPipes]
    by_cases hc : c = '|'
    · subst hc
      obtain ⟨front, last, heq, hlen, hnil⟩ := ih false
      rw [if_pos rfl, show ('|' == '\\' && ! escaped) = false by rfl]
      cases escaped with
      | false =>
        have hrow : pieces false (['\\', '|'] ++ escapePipes s ++ ' ' :: b) =
            extend '\\' (extend '|' (pieces false (escapePipes s ++ ' ' :: b))) := rfl
        rw [hrow, heq, if_neg (by simp), Nat.zero_add]
        cases front with
        | nil =>
          refine ⟨[], '\\' :: '|' :: last, rfl, hlen, fun _ => ?_⟩
          rw [hnil rfl]
          rfl
        | cons q front =>
          exact ⟨('\\' :: '|' :: q) :: front, last, rfl, hlen, fun h => absurd h (List.cons_ne_nil _ _)⟩
      | true =>
        have hrow : pieces true (['\\', '|'] ++ escapePipes s ++ ' ' :: b) =
            ['\\'] :: pieces false (escapePipes s ++ ' ' :: b) := rfl
        rw [hrow, heq, if_pos ⟨rfl, rfl⟩]
        refine ⟨['\\'] :: front, last, rfl, ?_, fun h => absurd h (List.cons_ne_nil _ _)⟩
        simp only [List.length_cons]
        omega
    · obtain ⟨front, last, heq, hlen, hnil⟩ := ih (c == '\\' && ! escaped)
      rw [if_neg hc, if_neg fun h => hc h.1, Nat.zero_add, List.cons_append, List.nil_append, List.cons_append, pieces,
        if_neg fun h => hc h.1, heq]
      cases front with
      | nil =>
        refine ⟨[], c :: last, rfl, hlen, fun _ => ?_⟩
        rw [hnil rfl]
      | cons q front => exact ⟨(c :: q) :: front, last, rfl, hlen, fun h => absurd h (List.cons_ne_nil _ _)⟩

/-- A row of cells. -/
def row (cs : List Text) : Text := '|' :: cs.flatMap fun c => ' ' :: c ++ [' ', '|']

theorem pieces_row (ts : List Text) : ∃ mid, pieces false (row (ts.map escapePipes)) = [] :: (mid ++ [[]]) ∧
    mid.length = ts.length + (ts.map (escapedPipes false)).sum ∧
    ((∀ t ∈ ts, escapedPipes false t = 0) → mid = ts.map fun t => ' ' :: escapePipes t ++ [' ']) := by
  have hrow (x : Text) : pieces false ('|' :: x) = [] :: pieces false x := rfl
  rw [row, hrow]
  induction ts with
  | nil => exact ⟨[], rfl, rfl, fun _ => rfl⟩
  | cons t ts ih =>
    obtain ⟨mid, hmid, hlen, hall⟩ := ih
    rw [List.cons.injEq] at hmid
    obtain ⟨front, last, heq, hfront, hnil⟩ := pieces_escapePipes (s := t) (hrow ((ts.map escapePipes).flatMap
      fun c => ' ' :: c ++ [' ', '|'])) false
    have hcell : pieces false (((t :: ts).map escapePipes).flatMap fun c => ' ' :: c ++ [' ', '|']) =
        extend ' ' (front ++ (last ++ [' ']) :: (mid ++ [[]])) := by
      rw [← hmid.2, ← heq, List.map_cons, List.flatMap_cons]
      simp only [List.cons_append, List.append_assoc, List.nil_append]
      rfl
    rw [hcell]
    cases front with
    | nil =>
      refine ⟨(' ' :: last ++ [' ']) :: mid, rfl, ?_, fun h => ?_⟩
      · rw [List.length_cons, hlen, List.map_cons, List.sum_cons, List.length_cons, ← hfront]
        simp only [List.length_nil]
        omega
      · rw [hall fun u hu => h u (List.mem_cons_of_mem _ hu), hnil rfl]
        rfl
    | cons q front =>
      refine ⟨(' ' :: q) :: front ++ (last ++ [' ']) :: mid, by simp [extend], ?_, fun h => ?_⟩
      · simp only [List.length_append, List.length_cons, List.map_cons, List.sum_cons] at hfront hlen ⊢
        omega
      · rw [h t List.mem_cons_self] at hfront
        exact absurd hfront (by simp)

/-- The number of cells of a row: one for each text, and one more for each pipe escaped before. -/
theorem length_cells_row (ts : List Text) :
    (cells (row (ts.map escapePipes))).length = ts.length + (ts.map (escapedPipes false)).sum := by
  obtain ⟨mid, hmid, hlen, -⟩ := pieces_row ts
  rw [cells, hmid, List.length_map, ← hlen]
  simp [dropEmpty]

/-- A text without blanks around it. -/
def Tight (s : Text) : Prop := (∀ c ∈ s.head?, blank c = false) ∧ ∀ c ∈ s.getLast?, blank c = false

theorem Tight.escapePipes (h : Tight s) : Tight (escapePipes s) := by
  constructor
  · cases s with
    | nil => simp [Commonmark.escapePipes]
    | cons c s =>
      have hc := h.1 c rfl
      rw [Commonmark.escapePipes, List.flatMap_cons]
      split_ifs with hbar
      · rintro d ⟨⟩
        rfl
      · rintro d ⟨⟩
        exact hc
  · rcases List.eq_nil_or_concat s with rfl | ⟨s, c, rfl⟩
    · simp [Commonmark.escapePipes]
    · have hc := h.2 c (by simp)
      rw [Commonmark.escapePipes, List.concat_eq_append, List.flatMap_append, List.flatMap_singleton]
      split_ifs with hbar
      · simp only [List.getLast?_append, List.getLast?_cons_cons, List.getLast?_singleton, Option.some_or]
        rintro d ⟨⟩
        rfl
      · simp only [List.getLast?_append, List.getLast?_singleton, Option.some_or]
        rintro d ⟨⟩
        exact hc

theorem trimBy_tight (h : Tight s) : trimBy blank (' ' :: s ++ [' ']) = s := by
  have hstart : trimStartBy blank (' ' :: s ++ [' ']) = trimStartBy blank (s ++ [' ']) := by
    rw [trimStartBy, List.cons_append, List.dropWhile_cons_of_pos (by decide), trimStartBy]
  cases s with
  | nil => rfl
  | cons c s =>
    have hkept : trimStartBy blank (c :: s ++ [' ']) = c :: s ++ [' '] :=
      List.dropWhile_cons_of_neg (by simp [h.1 c rfl])
    have hself := trimBy_eq_self h.1 h.2
    rw [trimBy, trimStartBy, List.dropWhile_cons_of_neg (by simp [h.1 c rfl])] at hself
    rw [trimBy, hstart, hkept, trimEndBy, List.rdropWhile_concat_pos _ _ _ (by decide)]
    exact hself

/-- **The cells of a row are the texts its cells were escaped from.** -/
theorem cells_row {ts : List Text} (h : ∀ t ∈ ts, Tight t ∧ escapedPipes false t = 0) :
    cells (row (ts.map escapePipes)) = ts := by
  obtain ⟨mid, hmid, -, hall⟩ := pieces_row ts
  rw [cells, hmid, hall fun t ht => (h t ht).2]
  simp only [dropEmpty, List.all_nil, if_true, List.reverse_append, List.reverse_singleton, List.singleton_append,
    List.reverse_reverse, List.map_map]
  conv_rhs => rw [← List.map_id ts]
  refine List.map_congr_left fun t ht => ?_
  show unescape (trimBy blank (' ' :: Commonmark.escapePipes t ++ [' '])) = t
  rw [trimBy_tight (h t ht).1.escapePipes, unescape_escapePipes]

end Cells

end Notely.Lib.Commonmark
