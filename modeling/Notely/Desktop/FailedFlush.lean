import Notely.Desktop.EditorState

/-! # Opening a note when the open one cannot be saved

`open` flushes the open note first, and `saveNow` keeps a failure to itself: `open` clears the error it has set and
goes on to its read. If the read succeeds the buffer with the unsaved text is replaced, and if it fails its own error
takes the place of the save error. So no call whose flush fails returns with the note as the user left it and the save
error shown (`never_kept`), whatever happens while it is suspended. In a call that nothing disturbs the buffer itself
is lost exactly when the new file is read (`buffered_iff`). -/

namespace Notely.Desktop.FailedFlush

open Notely.Lib.Strings Notely.Lib.Paths Notely.Lib.Lts Notely.Desktop.EditorState

/-! ### What is asked for -/

/-- The error of a write that failed. -/
def saveError (message : String) : String := "Could not save file: " ++ message

/-- The buffer holds `text`, not saved, for the note `old`. -/
structure Buffered (old : Path) (text : Text) (e : Editor) : Prop where
  openPath : e.openPath = some old
  text : e.text = text
  dirty : e.dirty = true

/-- **The unsaved text is kept**, and the user is told that it could not be saved. -/
structure Kept (old : Path) (text : Text) (message : String) (e : Editor) : Prop extends Buffered old text e where
  error : e.error = some (saveError message)

/-! ### A call of `open` -/

/-- `open(path)` returns, after the write of the note `old` has failed with `message`. While it is suspended the user,
the timer and other calls go on. -/
inductive Returns (e : Editor) (old path : Path) (message : String) : Editor → Prop
  | intro {e1 e2 e3 e4 e5 e' : Editor} {as bs cs : List Editor.Action} {i j k : ℕ} {content : Text} {left : Option Text}
      {outcome : Outcome} (hopen : e.openPath = some old) (hdirty : e.dirty = true)
      (hflush : run Editor.step (e.openFile path) as = some e1)
      (hwriting : e1.tasks[i]? = some (.writing old content (.open path)))
      (hfailed : e1.step (.complete i (.failed message left)) = some e2)
      (hread : run Editor.step e2 bs = some e3) (hflushed : e3.tasks[j]? = some (.flushed path))
      (hstart : e3.step (.complete j .ok) = some e4) (hend : run Editor.step e4 cs = some e5)
      (hreading : e5.tasks[k]? = some (.reading path)) (hdone : e5.step (.complete k outcome) = some e') :
      Returns e old path message e'

/-- The new file cannot be read. -/
def Unreadable (e : Editor) (path : Path) (outcome : Outcome) : Prop := outcome = .ok → e.disk path = none

instance (e : Editor) (path : Path) : ∀ outcome, Decidable (Unreadable e path outcome)
  | .ok => decidable_of_iff (e.disk path = none) ⟨fun h _ => h, fun h => h rfl⟩
  | .failed _ _ => isTrue (by simp [Unreadable])

section Calls
variable {e e' : Editor} {old path : Path} {text : Text} {message : String} {left : Option Text} {outcome : Outcome}

/-- A read that ends leaves the buffer clean, or its own error. -/
theorem readDone_cases (e : Editor) (path : Path) (outcome : Outcome) :
    (¬ Unreadable e path outcome ∧ (e.readDone path outcome).openPath = some path ∧
      (e.readDone path outcome).dirty = false) ∨
    (Unreadable e path outcome ∧ ∃ reason, e.readDone path outcome =
      { e with error := some ("Could not open file: " ++ reason), loading := false }) := by
  cases outcome with
  | ok =>
    unfold Editor.readDone
    cases hdisk : e.disk path with
    | none => exact Or.inr ⟨fun _ => hdisk, "", rfl⟩
    | some raw => exact Or.inl ⟨fun h => by simp [h rfl] at hdisk, rfl, rfl⟩
  | failed reason left => exact Or.inr ⟨fun h => by simp at h, reason, rfl⟩

/-- The two kinds of error are not confused. -/
theorem openError_ne (message reason : String) : "Could not open file: " ++ reason ≠ saveError message := by
  intro h
  have hlist := congrArg (fun s => s.toList.take 11) h
  unfold saveError at hlist
  simp only [String.toList_append] at hlist
  rw [List.take_append_of_le_length (by decide), List.take_append_of_le_length (by decide)] at hlist
  exact absurd hlist (by decide)

theorem not_kept_readDone (e : Editor) (path : Path) (outcome : Outcome) :
    ¬ Kept old text message (e.readDone path outcome) := by
  rintro ⟨⟨-, -, hdirty⟩, herror⟩
  rcases readDone_cases e path outcome with ⟨-, -, hclean⟩ | ⟨-, reason, heq⟩
  · simp [hclean] at hdirty
  · rw [heq] at herror
    exact openError_ne message reason (Option.some.inj herror)

/-- **A call whose flush fails never returns with the unsaved text kept.** -/
theorem never_kept (h : Returns e old path message e') : ∀ text, ¬ Kept old text message e' := by
  intro text hkept
  obtain ⟨-, -, -, -, -, -, -, -, -, hreading, hdone⟩ := h
  obtain ⟨task, htask, rfl⟩ := Option.map_eq_some_iff.mp hdone
  obtain rfl : task = .reading path := Option.some.inj (htask.symm.trans hreading)
  exact not_kept_readDone _ path _ hkept

/-! ### A call that nothing disturbs -/

/-- Its steps. -/
def failedFlush (e : Editor) (path : Path) (message : String) (left : Option Text) (outcome : Outcome) :
    List Editor.Action :=
  [.open path, .complete e.tasks.length (.failed message left), .complete e.tasks.length .ok,
    .complete e.tasks.length outcome]

/-- The editor as its read finds it. -/
def flushed (e : Editor) (old : Path) (left : Option Text) : Editor :=
  { e with saveTimer := false, loading := true, error := none, disk := Function.update e.disk old left }

/-- The last of the suspended calls goes on. -/
theorem complete_last {tasks : List Task} {task : Task} :
    { e with tasks := tasks ++ [task] }.step (.complete tasks.length outcome) =
      some ({ e with tasks := tasks }.goOn outcome task) := by
  have herase : (tasks ++ [task]).eraseIdx tasks.length = tasks := by
    rw [List.eraseIdx_append_of_length_le (Nat.le_refl _)]
    simp
  simp [Editor.step, herase]

theorem openFile_dirty (hopen : e.openPath = some old) (hdirty : e.dirty = true) (hne : path ≠ old) :
    e.openFile path = { e with
      saveTimer := false, tasks := e.tasks ++ [.writing old (applyEol e.eol e.text) (.open path)] } := by
  have hother : ¬ e.openPath = some path := by
    rw [hopen]
    exact fun h => hne (Option.some.inj h).symm
  rw [Editor.openFile, if_neg hother, Editor.saveNow, hopen, hdirty]

/-- **What it comes to.** -/
theorem run_failedFlush (hopen : e.openPath = some old) (hdirty : e.dirty = true) (hne : path ≠ old) :
    run Editor.step e (failedFlush e path message left outcome) =
        some ((flushed e old left).readDone path outcome) ∧
      Returns e old path message ((flushed e old left).readDone path outcome) := by
  have hflush : e.openFile path = { e with
      saveTimer := false, tasks := e.tasks ++ [.writing old (applyEol e.eol e.text) (.open path)] } :=
    openFile_dirty hopen hdirty hne
  have hfailed : (e.openFile path).step (.complete e.tasks.length (.failed message left)) = some { e with
      saveTimer := false, error := some (saveError message), disk := Function.update e.disk old left,
      tasks := e.tasks ++ [.flushed path] } :=
    hflush ▸ complete_last (e := { e with saveTimer := false })
  have hstart : { e with
      saveTimer := false, error := some (saveError message), disk := Function.update e.disk old left,
      tasks := e.tasks ++ [Task.flushed path] }.step (.complete e.tasks.length .ok) =
        some { flushed e old left with tasks := e.tasks ++ [.reading path] } :=
    complete_last (e := { e with
      saveTimer := false, error := some (saveError message), disk := Function.update e.disk old left })
  have hdone : { flushed e old left with tasks := e.tasks ++ [Task.reading path] }.step
      (.complete e.tasks.length outcome) = some ((flushed e old left).readDone path outcome) :=
    complete_last (e := flushed e old left)
  have hwriting : (e.openFile path).tasks[e.tasks.length]? =
      some (.writing old (applyEol e.eol e.text) (.open path)) := by
    rw [hflush]
    simp
  have hquiet (e : Editor) : run Editor.step e [] = some e := rfl
  refine ⟨?_, .intro hopen hdirty (hquiet _) hwriting hfailed (hquiet _) ?_ hstart (hquiet _) ?_ hdone⟩
  · have hstep : e.step (.open path) = some (e.openFile path) := rfl
    simp only [failedFlush, run, hstep, hfailed, hstart, hdone, Option.bind_some]
  · simp
  · simp

/-- **The buffer is lost exactly when the new file is read.** -/
theorem buffered_iff (hopen : e.openPath = some old) (hdirty : e.dirty = true) (hne : path ≠ old) :
    Buffered old e.text ((flushed e old left).readDone path outcome) ↔ Unreadable e path outcome := by
  have hsame : Unreadable (flushed e old left) path outcome ↔ Unreadable e path outcome := by
    simp [Unreadable, flushed, hne]
  rw [← hsame]
  rcases readDone_cases (flushed e old left) path outcome with ⟨hread, hpath, -⟩ | ⟨hread, reason, heq⟩
  · refine iff_of_false (fun h => ?_) hread
    exact hne (Option.some.inj (hpath.symm.trans h.openPath))
  · refine iff_of_true ?_ hread
    rw [heq]
    exact ⟨hopen, rfl, hdirty⟩

end Calls

/-- The note `a` is open with the text `x` typed in; every note says `o`. -/
def typed : Editor := { Editor.new fun _ => some ['o'] with openPath := some [['a']], text := ['x'], dirty := true }

/-- The disk is full and `b` is gone: the note stays, with the wrong error. -/
theorem error_replaced : ∃ e', run Editor.step typed
      (failedFlush typed [['b']] "disk full" none (.failed "gone" none)) = some e' ∧
    Buffered [['a']] ['x'] e' ∧ ∀ text, ¬ Kept [['a']] text "disk full" e' := by
  have hne : ([['b']] : Path) ≠ [['a']] := by decide
  have hgone : Unreadable typed [['b']] (.failed "gone" none) := by decide
  obtain ⟨hrun, hreturns⟩ : _ ∧ Returns typed [['a']] [['b']] "disk full" _ := run_failedFlush rfl rfl hne
  exact ⟨_, hrun, (buffered_iff rfl rfl hne).mpr hgone, never_kept hreturns⟩

/-- **The unsaved text is gone**: the disk is full, and `b` is read. -/
theorem text_discarded : ¬ ∀ (e e' : Editor) (old path : Path) (message : String) (left : Option Text)
    (outcome : Outcome), e.openPath = some old → e.dirty = true → path ≠ old →
      run Editor.step e (failedFlush e path message left outcome) = some e' → Kept old e.text message e' := by
  intro h
  have hne : ([['b']] : Path) ≠ [['a']] := by decide
  have hread : ¬ Unreadable typed [['b']] .ok := by decide
  have hrun : run Editor.step typed (failedFlush typed [['b']] "disk full" none .ok) = _ :=
    (run_failedFlush rfl rfl hne).1
  have hkept : Kept [['a']] ['x'] "disk full" _ := h typed _ [['a']] [['b']] _ _ _ rfl rfl hne hrun
  exact hread ((buffered_iff rfl rfl hne).mp hkept.toBuffered)

end Notely.Desktop.FailedFlush
