import Notely.Lib.Lts
import Notely.Lib.Paths

/-! # The editor: one open file, autosaved

`EditorController` of `features/editor/editor_state.dart`. Dart runs one handler at a time, so a step is
what happens between two `await`s: a user edit, the autosave timer, a call, or the continuation of a
call that was suspended. The suspended calls are the list `tasks`; a pending file write takes effect on
`disk` in the step that resumes its caller, and a pending read returns what `disk` holds in the step that
resumes it. Steps of different tasks may come in any order.

`saveNow` is called by the timer, by `open` (to flush), by `setContent` and from outside; `Caller` says
who waits for it. -/

namespace Notely.Desktop.EditorState

open Notely.Lib.Strings Notely.Lib.Paths

/-! ### Line endings -/

/-- `_eol`. -/
inductive Eol
  | lf
  | crlf
  deriving DecidableEq, Repr

/-- The line ending remembered for a file: `raw.contains('\r\n') ? '\r\n' : '\n'`. -/
def eolOf (raw : Text) : Eol := if ['\r', '\n'] <:+: raw then .crlf else .lf

/-- `_normalizeNewlines`. -/
def normalizeNewlines (s : Text) : Text :=
  replaceAll ['\r'] ['\n'] (replaceAll ['\r', '\n'] ['\n'] s)

/-- `_applyEol`. -/
def applyEol (eol : Eol) (s : Text) : Text :=
  match eol with
  | .lf => s
  | .crlf => replaceAll ['\n'] ['\r', '\n'] s

/-! ### The state -/

/-- Who waits for a call of `saveNow`. -/
inductive Caller
  | timer
  | open (path : Path)
  | setContent
  | other
  deriving DecidableEq, Repr

/-- A suspended call, with what it still needs. -/
inductive Task
  /-- `saveNow`, in `await _fs.writeFile(path, content)`. -/
  | writing (path : Path) (content : Text) (caller : Caller)
  /-- `open(path)`, its `await _flushSave()` done. -/
  | flushed (path : Path)
  /-- `open(path)`, in `await _fs.readFile(path)`. -/
  | reading (path : Path)
  deriving DecidableEq, Repr

/-- How a file operation ends: `left` is what a failed write leaves in the file. -/
inductive Outcome
  | ok
  | failed (message : String) (left : Option Text)
  deriving DecidableEq, Repr

/-- The controller, its suspended calls and the files. `disk p` is the text `readFile` decodes from
`p`, `none` where it throws. -/
structure Editor where
  openPath : Option Path
  eol : Eol
  text : Text
  dirty : Bool
  loading : Bool
  error : Option String
  saveTimer : Bool
  tasks : List Task
  disk : Path → Option Text

/-- A new controller over the given files. -/
def Editor.new (disk : Path → Option Text) : Editor where
  openPath := none
  eol := .lf
  text := []
  dirty := false
  loading := false
  error := none
  saveTimer := false
  tasks := []
  disk := disk

namespace Editor

/-! ### The calls -/

/-- `saveNow` returns to its caller: `open` goes on, the others have nothing left to do here. -/
def resume (e : Editor) : Caller → Editor
  | .open path => { e with tasks := e.tasks ++ [.flushed path] }
  | .timer | .setContent | .other => e

/-- `saveNow`, up to its write. -/
def saveNow (e : Editor) (caller : Caller) : Editor :=
  match e.openPath, e.dirty with
  | some path, true =>
    { e with
      saveTimer := false
      tasks := e.tasks ++ [.writing path (applyEol e.eol e.text) caller] }
  | _, _ => { e with saveTimer := false }.resume caller

/-- `saveNow`, from the end of its write. -/
def written (e : Editor) (path : Path) (content : Text) (caller : Caller) : Outcome → Editor
  | .ok =>
    { e with disk := Function.update e.disk path (some content), dirty := false, error := none }.resume
      caller
  | .failed message left =>
    { e with
      disk := Function.update e.disk path left
      error := some ("Could not save file: " ++ message) }.resume caller

/-- `open`, up to the flush. -/
def openFile (e : Editor) (path : Path) : Editor :=
  if e.openPath = some path then e else e.saveNow (.open path)

/-- `open`, from the flush to the read. -/
def startRead (e : Editor) (path : Path) : Editor :=
  { e with loading := true, error := none, tasks := e.tasks ++ [.reading path] }

/-- `open`, from the end of its read: the buffer is replaced only if the read succeeds. A read of what
`readFile` cannot decode throws, whatever the outcome told. -/
def readDone (e : Editor) (path : Path) : Outcome → Editor
  | .ok =>
    match e.disk path with
    | some raw =>
      { e with
        eol := eolOf raw
        openPath := some path
        text := normalizeNewlines raw
        dirty := false
        loading := false }
    | none => { e with error := some "Could not open file: ", loading := false }
  | .failed message _ => { e with error := some ("Could not open file: " ++ message), loading := false }

/-- The text controller tells `_onChanged` of its new value. -/
def edit (e : Editor) (text : Text) : Editor :=
  if e.openPath.isSome then { e with text := text, dirty := true, saveTimer := true }
  else { e with text := text }

/-- `setContent`, up to its write. -/
def setContent (e : Editor) (markdown : Text) : Editor :=
  if e.openPath.isSome then { e with text := markdown, dirty := true }.saveNow .setContent else e

/-- `handlePathMoved`. -/
def handlePathMoved (e : Editor) (oldPath newPath : Path) : Editor :=
  { e with openPath := e.openPath.map (moved oldPath newPath) }

/-- `handlePathDeleted`. -/
def handlePathDeleted (e : Editor) (path : Path) : Editor :=
  match e.openPath with
  | some p =>
    if path <+: p then { e with saveTimer := false, openPath := none, dirty := false, text := [] } else e
  | none => e

/-! ### What `saveNow` leaves alone -/

section SaveNow
variable (e : Editor) (c : Caller)

@[simp] theorem resume_openPath : (e.resume c).openPath = e.openPath := by cases c <;> rfl
@[simp] theorem resume_eol : (e.resume c).eol = e.eol := by cases c <;> rfl
@[simp] theorem resume_text : (e.resume c).text = e.text := by cases c <;> rfl
@[simp] theorem resume_dirty : (e.resume c).dirty = e.dirty := by cases c <;> rfl
@[simp] theorem resume_disk : (e.resume c).disk = e.disk := by cases c <;> rfl

/-- `saveNow` returns at once, or starts one write. -/
theorem saveNow_eq : e.saveNow c = { e with saveTimer := false }.resume c ∨
    ∃ p, e.openPath = some p ∧ e.dirty = true ∧ e.saveNow c = { e with
      saveTimer := false, tasks := e.tasks ++ [.writing p (applyEol e.eol e.text) c] } := by
  unfold saveNow
  split
  · next p hp hd => exact Or.inr ⟨p, hp, hd, rfl⟩
  · exact Or.inl rfl

@[simp] theorem saveNow_openPath : (e.saveNow c).openPath = e.openPath := by
  rcases e.saveNow_eq c with h | ⟨p, -, -, h⟩ <;> simp [h]
@[simp] theorem saveNow_eol : (e.saveNow c).eol = e.eol := by
  rcases e.saveNow_eq c with h | ⟨p, -, -, h⟩ <;> simp [h]
@[simp] theorem saveNow_text : (e.saveNow c).text = e.text := by
  rcases e.saveNow_eq c with h | ⟨p, -, -, h⟩ <;> simp [h]
@[simp] theorem saveNow_dirty : (e.saveNow c).dirty = e.dirty := by
  rcases e.saveNow_eq c with h | ⟨p, -, -, h⟩ <;> simp [h]
@[simp] theorem saveNow_disk : (e.saveNow c).disk = e.disk := by
  rcases e.saveNow_eq c with h | ⟨p, -, -, h⟩ <;> simp [h]

end SaveNow

/-! ### Steps -/

inductive Action
  /-- The user changes the text (or the selection: the listener is told of both). -/
  | edit (text : Text)
  /-- The autosave timer fires. -/
  | fire
  | open (path : Path)
  | setContent (markdown : Text)
  | saveNow
  | pathMoved (oldPath newPath : Path)
  | pathDeleted (path : Path)
  /-- The `i`-th suspended call goes on, its file operation having ended as told. -/
  | complete (i : ℕ) (outcome : Outcome)
  deriving DecidableEq, Repr

/-- The continuation of a suspended call. -/
def goOn (e : Editor) (outcome : Outcome) : Task → Editor
  | .writing path content caller => e.written path content caller outcome
  | .flushed path => e.startRead path
  | .reading path => e.readDone path outcome

def step (e : Editor) : Action → Option Editor
  | .edit text => some (e.edit text)
  | .fire => if e.saveTimer then some (e.saveNow .timer) else none
  | .open path => some (e.openFile path)
  | .setContent markdown => some (e.setContent markdown)
  | .saveNow => some (e.saveNow .other)
  | .pathMoved oldPath newPath => some (e.handlePathMoved oldPath newPath)
  | .pathDeleted path => some (e.handlePathDeleted path)
  | .complete i outcome =>
    e.tasks[i]?.map fun task => { e with tasks := e.tasks.eraseIdx i }.goOn outcome task

end Editor

end Notely.Desktop.EditorState
