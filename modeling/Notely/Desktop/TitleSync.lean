import Notely.Desktop.EditorSaves
import Notely.Desktop.FileSystem

/-! # A note is named after its title

`_TitleSync` of `features/workspace/workspace_shell.dart` beside the editor: a note whose first line differs from its
name is saved, renamed, and the editor is told, with an await before each. In between the user types, the autosave
timer fires, and writes end. Reads and writes are by path, and paths that differ name different files; a rename that
fails leaves all as it was.

* `inv_step`: as long as a write that ends is to where the note is, with what the editor shows, and a rename is of the
  note where it is, the note is in one place only, and the editor is told of it.
* `one_path`: so at rest the note is at the open path and nowhere else, and holds the buffer. -/

namespace Notely.Desktop.TitleSync

open Notely.Lib.Strings Notely.Lib.Paths Notely.Lib.Lts Notely.Desktop.Dart Notely.Desktop.EditorState
open Notely.Desktop.EditorSaves (Holds)
open Notely.Desktop.FileSystem (Platform)

/-! ### Titles -/

/-- `firstLine`. -/
def firstLine (text : Text) : Text := text.takeWhile (· ≠ '\n')

/-- `\s`. -/
def regExpSpace (c : Char) : Bool := whitespace c && c ≠ Char.ofNat 0x85

/-- The marks of a heading, `^\s*#{1,6}\s*`, taken off. -/
def withoutMarks (s : Text) : Text :=
  let rest := s.dropWhile regExpSpace
  let marks := (rest.takeWhile (· = '#')).length
  if marks = 0 then s else (rest.drop (min marks 6)).dropWhile regExpSpace

/-- What a file name may not contain. -/
def illegal : Text := "\\/:*?\"<>|\t\n\r".toList

/-- `titleToFileName`. -/
def titleToFileName (rawFirstLine : Text) : Option Text :=
  let s := trim ((withoutMarks rawFirstLine).filter fun c => ! illegal.contains c)
  if s = [] then none else some s

/-- `p.basenameWithoutExtension`. -/
def stem (path : Path) : Text :=
  let name := basename path
  let after := (name.reverse.takeWhile (· ≠ '.')).length
  if after + 1 < name.length then name.take (name.length - after - 1) else name

/-! ### The state -/

/-- The editor, the suspended calls of `_sync`, and the paths the note has had; `typed` as in `EditorSaves.Watched`. -/
structure Shell where
  ed : Editor
  typed : Bool := false
  /-- The titles of the calls in `await editor.saveNow()`, in the order of their writes. -/
  inSave : List Text := []
  /-- The calls in the `rename` of `renameForTitle`: the path and the title. -/
  inRename : List (Path × Text) := []
  /-- The calls in the `refresh` of `renameForTitle`: the old path and the new one. -/
  inRefresh : List (Path × Path) := []
  names : List Path

/-- A note just opened. -/
def start (disk : Path → Option Text) (path : Path) : Shell where
  ed := (Editor.new disk).readDone path .ok
  names := [path]

namespace Shell

variable (P : Platform) (s : Shell)

/-- The title to be given to the note. -/
def newTitle : Option Text :=
  match s.ed.openPath with
  | some path =>
    if s.ed.loading || ! s.ed.dirty then none
    else (titleToFileName (firstLine s.ed.text)).filter fun title => title ≠ stem path
  | none => none

/-- `_sync`, up to its save. -/
def sync : Shell :=
  match s.newTitle with
  | some title => { s with ed := s.ed.saveNow .other, inSave := s.inSave ++ [title] }
  | none => s

/-- A call of `saveNow` other than by the timer returns, the `i`-th of the writes having ended. -/
def resume (rank : ℕ) : Caller → Shell
  | .other =>
    match s.inSave[rank]?, s.ed.openPath with
    | some title, some path =>
      { s with inSave := s.inSave.eraseIdx rank, inRename := s.inRename ++ [(path, title)] }
    | _, _ => s
  | _ => s

/-- The write is that of a call of `_sync`. -/
def isSync : Task → Bool
  | .writing _ _ .other => true
  | _ => false

/-- Where `rename` puts a file. -/
def dest (path : Path) (title : Text) : Path := join (dirname path) (P.ensureMarkdown title)

/-- `rename` takes effect. -/
def Renames (path : Path) (title : Text) : Prop :=
  P.equals (dest P path title) path = false ∧ (s.ed.disk path).isSome ∧
    (P.isCaseOnlyRename path (dest P path title) = true ∨ (s.ed.disk (dest P path title)).isNone)

instance (path : Path) (title : Text) : Decidable (s.Renames P path title) :=
  inferInstanceAs (Decidable (_ ∧ _ ∧ (_ ∨ _)))

/-- `rename` ends, and `renameForTitle` goes on to `refresh`. -/
def renamed (path : Path) (title : Text) : Shell :=
  if s.Renames P path title then
    { s with
      ed := { s.ed with
        disk := Function.update (Function.update s.ed.disk path none) (dest P path title) (s.ed.disk path) }
      inRefresh := s.inRefresh ++ [(path, dest P path title)]
      names := s.names ++ [dest P path title] }
  else s

end Shell

/-! ### Steps -/

inductive Action
  | edit (text : Text)
  /-- The autosave timer fires. -/
  | fire
  /-- `_sync` runs. -/
  | sync
  /-- The `i`-th suspended call of the editor, a write, ends. -/
  | complete (i : ℕ)
  /-- The `rename` of a call ends. -/
  | renamed (j : ℕ)
  /-- The `refresh` of a call ends: the editor is told. -/
  | refreshed (j : ℕ)

def step (P : Platform) (s : Shell) : Action → Option Shell
  | .edit text => some { s with ed := s.ed.edit text, typed := s.typed || s.ed.openPath.isSome }
  | .fire => if s.ed.saveTimer then some { s with ed := s.ed.saveNow .timer } else none
  | .sync => some s.sync
  | .complete i =>
    match s.ed.tasks[i]? with
    | some (.writing path content caller) =>
      some ({ s with ed := { s.ed with tasks := s.ed.tasks.eraseIdx i }.written path content caller .ok }.resume
        ((s.ed.tasks.take i).countP Shell.isSync) caller)
    | _ => none
  | .renamed j =>
    s.inRename[j]?.map fun (path, title) => { s with inRename := s.inRename.eraseIdx j }.renamed P path title
  | .refreshed j =>
    s.inRefresh[j]?.map fun (oldPath, newPath) =>
      { s with inRefresh := s.inRefresh.eraseIdx j, ed := s.ed.handlePathMoved oldPath newPath }

/-! ### What is asked -/

/-- Nothing is pending. -/
def Quiet (s : Shell) : Prop :=
  s.ed.tasks = [] ∧ s.ed.saveTimer = false ∧ s.inSave = [] ∧ s.inRename = [] ∧ s.inRefresh = []

/-- **The note is at the open path and nowhere else, and holds the buffer**; other files are as they were. -/
def Agrees (disk : Path → Option Text) (s : Shell) : Prop :=
  ∃ p, s.ed.openPath = some p ∧ p ∈ s.names ∧ Holds ⟨s.ed, s.typed⟩ p ∧
    (∀ q ∈ s.names, q ≠ p → s.ed.disk q = none) ∧ ∀ q, q ∉ s.names → s.ed.disk q = disk q

/-- A write may end: it is to the open path, the note has not been renamed away from there, and it carries what the
editor shows, or changes nothing. -/
def CurrentWrite (s : Shell) : Task → Prop
  | .writing path content _ =>
    s.ed.openPath = some path ∧ (∀ r ∈ s.inRefresh, r.1 ≠ path) ∧
      (content = applyEol s.ed.eol s.ed.text ∨ (s.ed.dirty = false ∧ s.ed.disk path = some content))
  | _ => True

/-- **Every write that ends is current, and a rename that takes effect is of the open path.** -/
def Timely (P : Platform) (s : Shell) : Action → Prop
  | .complete i => ∀ t ∈ s.ed.tasks[i]?, CurrentWrite s t
  | .renamed j => ∀ r ∈ s.inRename[j]?, s.Renames P r.1 r.2 → s.ed.openPath = some r.1
  | _ => True

instance (s : Shell) : ∀ t, Decidable (CurrentWrite s t)
  | .writing path content _ => inferInstanceAs (Decidable (s.ed.openPath = some path ∧
      (∀ r ∈ s.inRefresh, r.1 ≠ path) ∧
        (content = applyEol s.ed.eol s.ed.text ∨ (s.ed.dirty = false ∧ s.ed.disk path = some content))))
  | .flushed _ | .reading _ => isTrue trivial

instance (P : Platform) (s : Shell) : DecidablePred (Timely P s)
  | .complete i => inferInstanceAs (Decidable (∀ t ∈ s.ed.tasks[i]?, CurrentWrite s t))
  | .renamed j =>
    inferInstanceAs (Decidable (∀ r ∈ s.inRename[j]?, s.Renames P r.1 r.2 → s.ed.openPath = some r.1))
  | .edit _ | .fire | .sync | .refreshed _ => isTrue trivial

/-! ### The invariant -/

/-- The note is at `place`, and the editor has it under `open_`, or is about to be told. -/
structure At (disk : Path → Option Text) (s : Shell) (open_ place : Path) : Prop where
  openPath : s.ed.openPath = some open_
  told : (s.inRefresh = [] ∧ place = open_) ∨ (s.inRefresh = [(open_, place)] ∧ place ≠ open_)
  named : place ∈ s.names ∧ open_ ∈ s.names
  elsewhere : ∀ q ∈ s.names, q ≠ place → s.ed.disk q = none
  others : ∀ q, q ∉ s.names → s.ed.disk q = disk q
  renamed : ∀ r ∈ s.inRename, r.1 ∈ s.names
  saved : s.ed.dirty = false → Holds ⟨s.ed, s.typed⟩ place
  unsaved : s.ed.dirty = true → s.ed.saveTimer = true ∨ s.ed.tasks ≠ []

/-- The note is in one place. -/
def Inv (disk : Path → Option Text) (s : Shell) : Prop := ∃ open_ place, At disk s open_ place

section Inv
variable {P : Platform} {disk : Path → Option Text} {s s' : Shell} {a : Action} {open_ place : Path}

theorem inv_start {path : Path} (h : (disk path).isSome) : Inv disk (start disk path) := by
  obtain ⟨raw, hraw⟩ := Option.isSome_iff_exists.mp h
  refine ⟨path, path, ?_⟩
  exact
    { openPath := by simp [start, Editor.readDone, Editor.new, hraw]
      told := Or.inl ⟨rfl, rfl⟩
      named := by simp [start]
      elsewhere := fun q hq hne => absurd (List.mem_singleton.mp hq) hne
      others := fun q _ => by simp [start, Editor.readDone, Editor.new, hraw]
      renamed := fun r hr => absurd hr List.not_mem_nil
      saved := fun _ => Or.inr ⟨rfl, raw, by simp [start, Editor.readDone, Editor.new, hraw]⟩
      unsaved := fun hdirty => by simp [start, Editor.readDone, Editor.new, hraw] at hdirty }

/-- `saveNow` starts a write, or there is nothing to write. -/
theorem at_saveNow (h : At disk s open_ place) (c : Caller) (titles : List Text) :
    At disk { s with ed := s.ed.saveNow c, inSave := titles } open_ place where
  openPath := by simpa using h.openPath
  told := h.told
  named := h.named
  elsewhere := by simpa using h.elsewhere
  others := by simpa using h.others
  renamed := h.renamed
  saved := by simpa [Holds] using h.saved
  unsaved := by
    intro hdirty
    rcases s.ed.saveNow_eq c with heq | ⟨p, -, -, heq⟩
    · have hopen := h.openPath
      have hdirty : s.ed.dirty = true := by simpa using hdirty
      simp only [Editor.saveNow, hopen, hdirty]
      simp
    · rw [heq]
      simp

theorem at_edit (h : At disk s open_ place) (text : Text) :
    At disk { s with ed := s.ed.edit text, typed := s.typed || s.ed.openPath.isSome } open_ place where
  openPath := by simp [Editor.edit, h.openPath]
  told := h.told
  named := h.named
  elsewhere := by simpa [Editor.edit, h.openPath] using h.elsewhere
  others := by simpa [Editor.edit, h.openPath] using h.others
  renamed := h.renamed
  saved := by simp [Editor.edit, h.openPath]
  unsaved := by simp [Editor.edit, h.openPath]

/-- The call whose save has ended goes on to its rename. -/
theorem at_resume (h : At disk s open_ place) (rank : ℕ) (c : Caller) : At disk (s.resume rank c) open_ place := by
  cases c with
  | other =>
    unfold Shell.resume
    dsimp only
    split
    · next title path _ hpath =>
      have hopen : path = open_ := Option.some.inj (hpath.symm.trans h.openPath)
      refine { h with renamed := fun r hr => ?_ }
      rcases List.mem_append.mp hr with hr | hr
      · exact h.renamed r hr
      · obtain rfl := List.mem_singleton.mp hr
        exact hopen ▸ h.named.2
    · exact h
  | _ => exact h

/-- A current write ends. -/
theorem at_written (h : At disk s open_ place) {path : Path} {content : Text} {c : Caller}
    (hcurrent : CurrentWrite s (.writing path content c)) (tasks : List Task) :
    At disk { s with ed := { s.ed with tasks := tasks }.written path content c .ok } open_ place := by
  obtain ⟨hpath, haway, hcontent⟩ := hcurrent
  have hopen : path = open_ := Option.some.inj (hpath.symm.trans h.openPath)
  subst hopen
  obtain ⟨hnone, rfl⟩ : s.inRefresh = [] ∧ place = path := by
    refine h.told.resolve_right fun htold => ?_
    rw [htold.1] at haway
    exact haway _ (List.mem_singleton_self _) rfl
  exact
    { openPath := by simpa [Editor.written] using h.openPath
      told := Or.inl ⟨hnone, rfl⟩
      named := h.named
      elsewhere := by
        intro q hq hne
        simpa [Editor.written, hne] using h.elsewhere q hq hne
      others := by
        intro q hq
        have hne : q ≠ place := fun heq => hq (heq ▸ h.named.1)
        simpa [Editor.written, hne] using h.others q hq
      renamed := h.renamed
      saved := by
        intro _
        rcases hcontent with rfl | ⟨hclean, hsame⟩
        · exact Or.inl (by simp [Editor.written])
        · have hdisk : Function.update s.ed.disk place (some content) = s.ed.disk := by
            rw [← hsame, Function.update_eq_self]
          simpa [Holds, Editor.written, hdisk] using h.saved hclean
      unsaved := by simp [Editor.written] }

/-- A rename of the open path ends. -/
theorem at_renamed (h : At disk s open_ place) {path : Path} {title : Text} (hnamed : path ∈ s.names)
    (hopen : s.Renames P path title → s.ed.openPath = some path) : Inv disk (s.renamed P path title) := by
  unfold Shell.renamed
  split_ifs with hgo
  · have heq : path = open_ := Option.some.inj ((hopen hgo).symm.trans h.openPath)
    subst heq
    obtain ⟨hmoves, hsome, -⟩ := hgo
    have hplace : place = path := by
      by_contra hne
      rw [h.elsewhere path hnamed (Ne.symm hne)] at hsome
      cases hsome
    subst hplace
    have hnone : s.inRefresh = [] := by
      rcases h.told with htold | htold
      · exact htold.1
      · exact absurd rfl htold.2
    have hne : Shell.dest P place title ≠ place := by
      intro heq
      rw [heq] at hmoves
      simp [Platform.equals] at hmoves
    refine ⟨place, Shell.dest P place title, ?_⟩
    exact
      { openPath := h.openPath
        told := Or.inr ⟨by simp [hnone], hne⟩
        named := ⟨List.mem_append_right _ (List.mem_singleton_self _), List.mem_append_left _ h.named.2⟩
        elsewhere := by
          intro q hq hqdest
          dsimp only
          rw [Function.update_of_ne hqdest]
          by_cases hqplace : q = place
          · rw [hqplace, Function.update_self]
          · rw [Function.update_of_ne hqplace]
            have hq : q ∈ s.names := (List.mem_append.mp hq).resolve_right fun hlast =>
              hqdest (List.mem_singleton.mp hlast)
            exact h.elsewhere q hq hqplace
        others := by
          intro q hq
          rw [List.mem_append, not_or, List.mem_singleton] at hq
          have hqplace : q ≠ place := fun heq => hq.1 (heq ▸ h.named.1)
          dsimp only
          rw [Function.update_of_ne hq.2, Function.update_of_ne hqplace]
          exact h.others q hq.1
        renamed := fun r hr => List.mem_append_left _ (h.renamed r hr)
        saved := by
          intro hclean
          simpa [Holds] using h.saved hclean
        unsaved := h.unsaved }
  · exact ⟨open_, place, h⟩

/-- The editor is told of a rename. -/
theorem at_refreshed (h : At disk s open_ place) {j : ℕ} {old new : Path} (hj : s.inRefresh[j]? = some (old, new)) :
    Inv disk { s with inRefresh := s.inRefresh.eraseIdx j, ed := s.ed.handlePathMoved old new } := by
  have hlast : s.inRefresh = [(open_, place)] := by
    rcases h.told with htold | htold
    · simp [htold.1] at hj
    · exact htold.1
  have hmem : (old, new) ∈ s.inRefresh := List.mem_of_getElem? hj
  rw [hlast, List.mem_singleton] at hmem
  obtain ⟨rfl, rfl⟩ := Prod.mk.inj hmem
  have hzero : j = 0 := by
    have hlt := (List.getElem?_eq_some_iff.mp hj).1
    rw [hlast, List.length_singleton] at hlt
    omega
  subst hzero
  refine ⟨new, new, ?_⟩
  exact
    { openPath := by simp [Editor.handlePathMoved, h.openPath, moved]
      told := Or.inl ⟨by simp [hlast], rfl⟩
      named := ⟨h.named.1, h.named.1⟩
      elsewhere := h.elsewhere
      others := h.others
      renamed := h.renamed
      saved := h.saved
      unsaved := h.unsaved }

/-- **Every step keeps the note in one place.** -/
theorem inv_step (h : Inv disk s) (hok : Timely P s a) (hs : step P s a = some s') : Inv disk s' := by
  obtain ⟨open_, place, h⟩ := h
  cases a with
  | edit text =>
    obtain rfl := Option.some.inj hs
    exact ⟨open_, place, at_edit h text⟩
  | fire =>
    simp only [step, Option.ite_none_right_eq_some, Option.some.injEq] at hs
    obtain ⟨-, rfl⟩ := hs
    exact ⟨open_, place, at_saveNow h .timer _⟩
  | sync =>
    obtain rfl := Option.some.inj hs
    unfold Shell.sync
    split
    · exact ⟨open_, place, at_saveNow h .other _⟩
    · exact ⟨open_, place, h⟩
  | complete i =>
    simp only [step] at hs
    split at hs
    · next path content caller htask =>
      obtain rfl := Option.some.inj hs
      exact ⟨open_, place, at_resume (at_written h (hok _ htask) _) _ _⟩
    · cases hs
  | renamed j =>
    obtain ⟨⟨path, title⟩, hj, rfl⟩ := Option.map_eq_some_iff.mp hs
    have herase : At disk { s with inRename := s.inRename.eraseIdx j } open_ place :=
      { h with renamed := fun r hr => h.renamed r (List.mem_of_mem_eraseIdx hr) }
    exact at_renamed herase (h.renamed _ (List.mem_of_getElem? hj)) (hok _ hj)
  | refreshed j =>
    obtain ⟨⟨old, new⟩, hj, rfl⟩ := Option.map_eq_some_iff.mp hs
    exact at_refreshed h hj

/-- A note in one place is there at rest, and saved. -/
theorem agrees_of_inv (h : Inv disk s) (hquiet : Quiet s) : Agrees disk s := by
  obtain ⟨open_, place, h⟩ := h
  obtain ⟨htasks, htimer, -, -, hrefresh⟩ := hquiet
  obtain ⟨-, rfl⟩ : s.inRefresh = [] ∧ place = open_ :=
    h.told.resolve_right fun htold => by simp [hrefresh] at htold
  have hclean : s.ed.dirty = false := by
    rw [Bool.eq_false_iff]
    intro hdirty
    simpa [htasks, htimer] using h.unsaved hdirty
  exact ⟨place, h.openPath, h.named.1, h.saved hclean, h.elsewhere, h.others⟩

/-- **At rest the note is at the open path and nowhere else, and holds the buffer**, if every write that ended was
current and every rename that took effect was of the open path. -/
theorem one_path {path : Path} (hpath : (disk path).isSome) (h : Reach (step P) (Timely P) (start disk path) s)
    (hquiet : Quiet s) : Agrees disk s :=
  agrees_of_inv (Reach.inv (I := Inv disk) h (inv_start hpath) fun _ _ _ hi hok hs => inv_step hi hok hs) hquiet

end Inv

/-- A note `a`. -/
def oneNote (p : Path) : Option Text := if p = ["a.md".toList] then some ['a'] else none

/-- The title becomes `b`, and then the text is left alone until the note is called so. -/
def retitled : List Action :=
  [.edit ['b'], .sync, .complete 0, .renamed 0, .refreshed 0, .edit ['b', 'c'], .fire, .complete 0]

/-- The text is changed, and saved, before the editor is told of the new name. -/
def editedMeanwhile : List Action :=
  [.edit ['b'], .sync, .complete 0, .renamed 0, .edit ['b', 'c'], .fire, .complete 0, .refreshed 0]

theorem one_path_retitled : ∃ s, run (step FileSystem.posix) (start oneNote ["a.md".toList]) retitled = some s ∧
    s.ed.openPath = some ["b.md".toList] ∧ Agrees oneNote s :=
  ⟨_, rfl, by decide, one_path (by decide) (.of_run (by decide :
    Along (step FileSystem.posix) (Timely FileSystem.posix) (start oneNote ["a.md".toList]) retitled) rfl)
    ⟨rfl, rfl, rfl, rfl, rfl⟩⟩

/-- The text is saved under the old name, which exists again. -/
theorem not_one_path : ¬ ∀ (P : Platform) (disk : Path → Option Text) (path : Path) (s : Shell), (disk path).isSome →
    Reach (step P) (fun _ _ => True) (start disk path) s → Quiet s → Agrees disk s := by
  intro h
  obtain ⟨s, hr, hquiet, hopen, hnames, hold⟩ :
      ∃ s, run (step FileSystem.posix) (start oneNote ["a.md".toList]) editedMeanwhile = some s ∧ Quiet s ∧
        s.ed.openPath = some ["b.md".toList] ∧ s.names = [["a.md".toList], ["b.md".toList]] ∧
          s.ed.disk ["a.md".toList] = some ['b', 'c'] :=
    ⟨_, rfl, ⟨rfl, rfl, rfl, rfl, rfl⟩, by decide, by decide, by decide⟩
  obtain ⟨p, hp, -, -, helsewhere, -⟩ :=
    h _ _ _ s (by decide) (.of_run (along_of_forall (fun _ _ _ => trivial) _) hr) hquiet
  have hpath : p = ["b.md".toList] := Option.some.inj (hp.symm.trans hopen)
  have hgone := helsewhere ["a.md".toList] (by simp [hnames]) (by rw [hpath]; decide)
  rw [hold] at hgone
  cases hgone

end Notely.Desktop.TitleSync
