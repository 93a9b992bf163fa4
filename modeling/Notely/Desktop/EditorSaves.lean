import Notely.Desktop.EditorState

/-! # The editor loses an edit only to a stale completion

`_dirty` is cleared when a write ends, not when it starts, and `open` replaces the buffer when its read
ends, whatever was typed since its flush. So an edit made while a write or an `open` is pending may be
forgotten: `edit_lost` is such a run. These are the only ways: call a completion *current* if a write
that ends carries what the editor still shows (or changes nothing), and a read that ends finds the
editor not dirty. `no_edit_lost`: in every run whose completions are current, whatever `open` replaces is
on disk, and a clean editor at rest shows what the disk holds.

The invariant is `Inv`: a clean editor's file holds its buffer. A history variable `typed` tells a buffer
the user typed, which the file must hold in the file's line ending, from one just read, of which the file
holds the text before normalization. -/

namespace Notely.Desktop.EditorSaves

open Notely.Lib.Strings Notely.Lib.Paths Notely.Lib.Lts Notely.Desktop.EditorState
open Notely.Desktop.EditorState.Editor (resume_openPath resume_eol resume_text resume_disk)

/-- The editor, and whether its buffer was typed in since the open file was read. -/
structure Watched where
  ed : Editor
  typed : Bool

/-- The action replaces the buffer by the text of `path`. -/
def Replaces (e : Editor) (path : Path) : Editor.Action → Prop
  | .complete i .ok => e.tasks[i]? = some (.reading path) ∧ (e.disk path).isSome
  | _ => False

/-- The history variable: an edit of an open file sets it, a file read into the buffer clears it. -/
def typedAfter (w : Watched) : Editor.Action → Bool
  | .edit _ => w.typed || w.ed.openPath.isSome
  | .complete i .ok =>
    match w.ed.tasks[i]? with
    | some (.reading path) => w.typed && (w.ed.disk path).isNone
    | _ => w.typed
  | _ => w.typed

def Watched.step (w : Watched) (a : Editor.Action) : Option Watched :=
  (w.ed.step a).map fun e => ⟨e, typedAfter w a⟩

/-- The file a suspended call reads. -/
def reads : Task → Option Path
  | .reading path => some path
  | _ => none

/-- Edits, autosaves and `open` calls, every read and write of which succeeds. -/
def Succeeds (e : Editor) : Editor.Action → Prop
  | .edit _ | .fire | .open _ => True
  | .complete i .ok => ∀ t ∈ e.tasks[i]?, ∀ path ∈ reads t, (e.disk path).isSome
  | _ => False

instance (e : Editor) : ∀ a, Decidable (Succeeds e a)
  | .edit _ | .fire | .open _ => isTrue trivial
  | .complete i .ok =>
    inferInstanceAs (Decidable (∀ t ∈ e.tasks[i]?, ∀ path ∈ reads t, (e.disk path).isSome))
  | .complete _ (.failed _ _) | .setContent _ | .saveNow | .pathMoved _ _ | .pathDeleted _ =>
    isFalse (fun h => h)

/-- The file at `p` holds the buffer, in the line ending remembered for it; a buffer not typed in may
still be as it was read. -/
def Holds (w : Watched) (p : Path) : Prop :=
  w.ed.disk p = some (applyEol w.ed.eol w.ed.text) ∨
    (w.typed = false ∧ ∃ raw, w.ed.disk p = some raw ∧ normalizeNewlines raw = w.ed.text)

/-- Nothing is pending. -/
def Quiet (e : Editor) : Prop := e.tasks = [] ∧ e.saveTimer = false

/-- A suspended call may end: a write carries the text the editor shows for that file, or the editor is
clean and the write leaves its file as it is; a read finds the editor clean. -/
def CurrentTask (e : Editor) : Task → Prop
  | .writing path content _ =>
    (e.openPath = some path ∧ content = applyEol e.eol e.text) ∨
      (e.dirty = false ∧ (e.openPath = some path → e.disk path = some content))
  | .reading _ => e.dirty = false
  | .flushed _ => True

/-- **Every completion is current.** -/
def Current (e : Editor) : Editor.Action → Prop
  | .complete i _ => ∀ t ∈ e.tasks[i]?, CurrentTask e t
  | _ => True

instance (e : Editor) : ∀ t, Decidable (CurrentTask e t)
  | .writing path content _ => inferInstanceAs (Decidable ((e.openPath = some path ∧
      content = applyEol e.eol e.text) ∨
        (e.dirty = false ∧ (e.openPath = some path → e.disk path = some content))))
  | .reading _ => inferInstanceAs (Decidable (e.dirty = false))
  | .flushed _ => isTrue trivial

instance (e : Editor) : ∀ a, Decidable (Current e a)
  | .complete i _ => inferInstanceAs (Decidable (∀ t ∈ e.tasks[i]?, CurrentTask e t))
  | .edit _ | .fire | .open _ | .setContent _ | .saveNow | .pathMoved _ _ | .pathDeleted _ =>
    isTrue trivial

/-! ### The invariant -/

/-- A clean editor's file holds its buffer. -/
def Inv (w : Watched) : Prop :=
  w.ed.dirty = false → ∀ p, w.ed.openPath = some p → Holds w p

/-- What a step leaves of the invariant when it touches neither the buffer nor the file. -/
theorem Inv.congr {w w' : Watched} (h : Inv w) (ht : w'.typed = w.typed)
    (hp : w'.ed.openPath = w.ed.openPath) (he : w'.ed.eol = w.ed.eol) (hx : w'.ed.text = w.ed.text)
    (hd : w'.ed.dirty = w.ed.dirty) (hdisk : w'.ed.disk = w.ed.disk) : Inv w' := by
  intro hc p hp'
  have := h (hd ▸ hc) p (hp ▸ hp')
  unfold Holds at this ⊢
  rwa [ht, he, hx, hdisk]

theorem inv_new (disk : Path → Option Text) : Inv ⟨Editor.new disk, false⟩ := by
  intro _ p hp
  simp [Editor.new] at hp

/-! ### One step -/

/-- A current write that ends: the file holds the buffer now, or did and still does. -/
theorem inv_written {w : Watched} (h : Inv w) {path : Path} {content : Text} {c : Caller}
    (hc : CurrentTask w.ed (.writing path content c)) (tasks : List Task) :
    Inv ⟨{ w.ed with tasks := tasks }.written path content c .ok, w.typed⟩ := by
  intro _ p hp
  simp only [Editor.written, resume_openPath] at hp
  simp only [Holds, Editor.written, resume_disk, resume_eol, resume_text]
  rcases hc with ⟨ho, rfl⟩ | ⟨hd, hsame⟩
  · left
    rw [ho, Option.some.injEq] at hp
    simp [hp]
  · have hold := h hd p hp
    by_cases hpp : p = path
    · subst hpp
      have hdisk := hsame hp
      rw [Function.update_self, ← hdisk]
      exact hold
    · rw [Function.update_of_ne hpp]
      exact hold

theorem inv_readDone {w : Watched} {path raw : _} (hraw : w.ed.disk path = some raw)
    (tasks : List Task) : Inv ⟨{ w.ed with tasks := tasks }.readDone path .ok, false⟩ := by
  intro _ p hp
  simp only [Editor.readDone, hraw, Option.some.injEq] at hp
  subst hp
  right
  simp [Editor.readDone, hraw]

/-- **Every step keeps the invariant.** -/
theorem inv_step {w w' : Watched} {a : Editor.Action} (h : Inv w) (hs : Succeeds w.ed a)
    (hc : Current w.ed a) (hst : w.step a = some w') : Inv w' := by
  obtain ⟨e, he, rfl⟩ := Option.map_eq_some_iff.mp hst
  cases a with
  | edit text =>
    simp only [Editor.step, Option.some.injEq] at he
    subst he
    by_cases ho : w.ed.openPath.isSome
    · intro hd
      simp [Editor.edit, ho] at hd
    · intro _ p hp
      simp only [Editor.edit, ho] at hp
      simp [show w.ed.openPath = some p from hp] at ho
  | fire =>
    simp only [Editor.step, Option.ite_none_right_eq_some, Option.some.injEq] at he
    obtain ⟨-, rfl⟩ := he
    exact h.congr rfl (by simp) (by simp) (by simp) (by simp) (by simp)
  | «open» path =>
    simp only [Editor.step, Option.some.injEq] at he
    subst he
    unfold Editor.openFile
    split_ifs
    · exact h
    · exact h.congr rfl (by simp) (by simp) (by simp) (by simp) (by simp)
  | complete i outcome =>
    cases outcome with
    | failed m l => exact absurd hs id
    | ok =>
      simp only [Editor.step, Option.map_eq_some_iff] at he
      obtain ⟨t, ht, rfl⟩ := he
      have hc := hc t ht
      cases t with
      | writing path content c =>
        have := inv_written h hc (w.ed.tasks.eraseIdx i)
        simpa only [typedAfter, ht, Editor.goOn] using this
      | flushed path => exact h.congr (by simp [typedAfter, ht]) rfl rfl rfl rfl rfl
      | reading path =>
        obtain ⟨raw, hraw⟩ := Option.isSome_iff_exists.mp (hs _ ht path rfl)
        have := inv_readDone hraw (w.ed.tasks.eraseIdx i)
        simpa only [typedAfter, ht, hraw, Editor.goOn, Option.isNone_some, Bool.and_false] using this
  | setContent _ => exact absurd hs id
  | saveNow => exact absurd hs id
  | pathMoved _ _ => exact absurd hs id
  | pathDeleted _ => exact absurd hs id

/-! ### Runs -/

/-- In every run whose steps meet `ok`, a file whose buffer `open` replaces holds that buffer, and at rest
the file of a clean editor holds what the editor shows. -/
def KeepsEdits (disk : Path → Option Text) (ok : Watched → Editor.Action → Prop) : Prop :=
  ∀ w, Reach Watched.step ok ⟨Editor.new disk, false⟩ w →
    (∀ a w' q, ok w a → w.step a = some w' → Replaces w.ed q a →
      ∀ p, w.ed.openPath = some p → Holds w p) ∧
    (Quiet w.ed → w.ed.dirty = false → ∀ p, w.ed.openPath = some p → Holds w p)

theorem reach_inv {disk : Path → Option Text} {w : Watched}
    (h : Reach Watched.step (fun w a => Succeeds w.ed a ∧ Current w.ed a) ⟨Editor.new disk, false⟩ w) :
    Inv w :=
  h.inv (inv_new disk) fun _ _ _ hi hok hst => inv_step hi hok.1 hok.2 hst

/-- **No edit is lost while every completion is current.** -/
theorem no_edit_lost (disk : Path → Option Text) :
    KeepsEdits disk fun w a => Succeeds w.ed a ∧ Current w.ed a := by
  intro w h
  have hi := reach_inv h
  refine ⟨fun a w' q hok _ hr p hp => ?_, fun _ hd p hp => hi hd p hp⟩
  -- only the end of a read replaces the buffer, and a current read finds the editor clean
  cases a with
  | complete i outcome =>
    cases outcome with
    | ok => exact hi (hok.2 _ hr.1) p hp
    | failed _ _ => exact absurd hr id
  | _ => exact absurd hr id

/-- A note `a` with the text `o`. -/
def oneNote (p : Path) : Option Text := if p = [['a']] then some ['o'] else none

/-- The note is opened, typed in and saved, and nothing is typed while the save is pending. -/
example : ∃ w, run Watched.step ⟨Editor.new oneNote, false⟩
      [.open [['a']], .complete 0 .ok, .complete 0 .ok, .edit ['x'], .fire, .complete 0 .ok] = some w ∧
    Along Watched.step (fun w a => Succeeds w.ed a ∧ Current w.ed a) ⟨Editor.new oneNote, false⟩
      [.open [['a']], .complete 0 .ok, .complete 0 .ok, .edit ['x'], .fire, .complete 0 .ok] ∧
    Quiet w.ed ∧ w.ed.dirty = false ∧ w.ed.disk [['a']] = some ['x'] :=
  ⟨_, rfl, by decide, ⟨rfl, rfl⟩, rfl, rfl⟩

/-- The note is opened, `x` typed and saved, and `y` typed while the save is pending. -/
def lateEdit : List Editor.Action :=
  [.open [['a']], .complete 0 .ok, .complete 0 .ok, .edit ['x'], .fire, .edit ['x', 'y'],
    .complete 0 .ok, .fire]

/-- **An edit made while a write is pending is forgotten.** The autosave timer finds the editor clean. -/
theorem edit_lost : ¬ ∀ disk, KeepsEdits disk fun w a => Succeeds w.ed a := by
  intro h
  obtain ⟨w, hw⟩ : ∃ w, run Watched.step ⟨Editor.new oneNote, false⟩ lateEdit = some w := ⟨_, rfl⟩
  have hr : Reach Watched.step (fun w a => Succeeds w.ed a) ⟨Editor.new oneNote, false⟩ w :=
    Reach.of_run (by decide) hw
  simp only [lateEdit, run] at hw
  cases hw
  have := (h _ _ hr).2 ⟨rfl, rfl⟩ rfl [['a']] rfl
  revert this
  unfold Holds
  decide

end Notely.Desktop.EditorSaves
