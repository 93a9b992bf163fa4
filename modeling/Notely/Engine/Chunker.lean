import Notely.Lib.Utf8

/-! # Cutting notes into passages

`search/chunker.rs`. A note is cut at its blank lines: `chunk_markdown` gathers whole paragraphs, with
the numbers of their lines, up to a budget of bytes, and makes a passage of them.

`chunk_start_lines`: the passages start at different lines, in the order of the note. -/

namespace Notely.Engine.Chunker

open Notely.Lib.Strings Notely.Lib.Utf8

/-- `Chunk`. -/
structure Chunk where
  startLine : ℕ
  endLine : ℕ
  text : Text
  deriving DecidableEq, Repr

/-- `DEFAULT_CHUNK_CHARS`. -/
def defaultChunkChars : ℕ := 1200

/-- `trim`. -/
def trim (s : Text) : Text := trimBy whiteSpace s

/-- A line with its number. -/
abbrev Numbered := ℕ × Text

/-- `line.trim().is_empty()`. -/
def blank (l : Numbered) : Bool := trim l.2 = []

/-- The lines of a text, numbered from zero. -/
def numberedLines (text : Text) : List Numbered := (text.splitOn '\n').zipIdx.map fun (l, i) => (i, l)

/-- The bytes a paragraph is counted for. -/
def paraChars (para : List Numbered) : ℕ := para.foldl (fun n l => n + ((encode l.2).length + 1)) 0

/-- The chunk made of the lines gathered. -/
def toChunk (cur : List Numbered) : Chunk where
  startLine := (cur.head?.map Prod.fst).getD 0
  endLine := (cur.getLast?.map Prod.fst).getD 0
  text := ['\n'].intercalate (cur.map Prod.snd)

/-- `flush`. -/
def flush (cur : List Numbered) : List Chunk := if cur = [] then [] else [toChunk cur]

/-- The loop of `chunk_markdown` from a line on, with the lines gathered for the current chunk. -/
def chunkFrom (budget : ℕ) (cur : List Numbered) (curChars : ℕ) : List Numbered → List Chunk
  | [] => flush cur
  | l :: ls =>
    if blank l then chunkFrom budget cur curChars ls
    else
      let para := l :: ls.takeWhile (! blank ·)
      let rest := ls.dropWhile (! blank ·)
      if 0 < curChars ∧ budget < curChars + paraChars para then
        flush cur ++ chunkFrom budget para (paraChars para) rest
      else chunkFrom budget (cur ++ para) (curChars + paraChars para) rest
termination_by ls => ls.length
decreasing_by
  · simp
  all_goals
    have := (List.dropWhile_sublist (fun x => ! blank x) (l := ls)).length_le
    simp only [List.length_cons]
    omega

/-- `chunk_markdown`. -/
def chunkMarkdown (text : Text) (maxChars : ℕ) : List Chunk :=
  chunkFrom (max maxChars 1) [] 0 (numberedLines text)

/-! ### Titles -/

/-- The lines of `str::lines`: no empty one after the last newline, no carriage return at the end. -/
def lines (text : Text) : List Text :=
  let pieces := text.splitOn '\n'
  (if pieces.getLast? = some [] then pieces.dropLast else pieces).map fun l =>
    if l.getLast? = some '\r' then l.dropLast else l

/-- The title that a line gives, if it is a heading. -/
def headingTitle (line : Text) : Option Text :=
  match trimStartBy whiteSpace line with
  | '#' :: rest =>
    if trim (rest.dropWhile (· = '#')) = [] then none else some (trim (rest.dropWhile (· = '#')))
  | _ => none

/-- `first_heading`. -/
def firstHeading (text : Text) : Option Text := (lines text).findSome? headingTitle

/-! ### Where passages start -/

section StartLines
variable (budget curChars : ℕ) (cur ls : List Numbered)

theorem flush_startLine : (flush cur).map Chunk.startLine = (cur.head?.map Prod.fst).toList := by
  cases cur <;> simp [flush, toChunk]

/-- The chunks are made of the lines left, in their order. -/
theorem chunkFrom_startLines :
    ((chunkFrom budget cur curChars ls).map Chunk.startLine).Sublist ((cur ++ ls).map Prod.fst) := by
  fun_induction chunkFrom budget cur curChars ls with
  | case1 cur _ =>
    rw [flush_startLine, List.append_nil]
    cases cur <;> simp
  | case2 cur _ l ls _ ih =>
    refine ih.trans (List.Sublist.map _ ?_)
    exact List.Sublist.append_left (List.sublist_cons_self l ls) cur
  | case3 cur _ l ls _ para rest _ ih =>
    have hpara : para ++ rest = l :: ls := by simp [para, rest, List.takeWhile_append_dropWhile]
    rw [List.map_append, List.map_append, flush_startLine, ← hpara]
    refine List.Sublist.append ?_ ih
    cases cur <;> simp
  | case4 cur _ l ls _ para rest _ ih =>
    have hpara : para ++ rest = l :: ls := by simp [para, rest, List.takeWhile_append_dropWhile]
    rwa [List.append_assoc, hpara] at ih

end StartLines

theorem numberedLines_fst (text : Text) :
    (numberedLines text).map Prod.fst = List.range (text.splitOn '\n').length := by
  rw [numberedLines, List.map_map]
  have : (Prod.fst ∘ fun x : Text × ℕ => (x.2, x.1)) = Prod.snd := rfl
  rw [show (fun x : Text × ℕ => match x with | (l, i) => (i, l)) = fun x => (x.2, x.1) from rfl, this,
    List.zipIdx_map_snd, List.range_eq_range']

/-- **The passages of a note start at different lines.** -/
theorem chunk_start_lines (text : Text) (maxChars : ℕ) :
    ((chunkMarkdown text maxChars).map Chunk.startLine).Nodup := by
  have h := chunkFrom_startLines (max maxChars 1) 0 [] (numberedLines text)
  rw [List.nil_append, numberedLines_fst] at h
  exact h.nodup List.nodup_range

end Notely.Engine.Chunker
