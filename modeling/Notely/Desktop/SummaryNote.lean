import Notely.Desktop.Listening

/-! # Summaries and the note they are composed from

A call of `summarise` reads the open note's text when it starts and hands `setContent` the summary when the
engine is done; in between the user may type and open other notes. `Watched` follows the note a call was
started on through renames, and records what every summary replaced. The engine is left open: it may answer
and send whatever it likes.

* `summary_right`: while nothing changes the text and no other note is opened, every summary replaces the
  text it is composed from, in its note.
* `summary_wrong`: a note opened while the summary is made is overwritten with it. -/

namespace Notely.Desktop.SummaryNote

open Notely.Lib.Lts Notely.Lib.Strings Notely.Lib.Paths Notely.Desktop.EditorState Notely.Desktop.Listening

/-! ### What is watched -/

/-- A summary put into the editor: the note and the text it is composed from, and those it replaced. -/
structure Put where
  note : Option Path
  current : Text
  openPath : Path
  replaced : Text

/-- The summary replaced the text it is composed from, in its note. -/
def Put.Right (p : Put) : Prop := p.note = some p.openPath ∧ p.replaced = p.current

/-- The client, the note of the call in flight, and the summaries put so far. -/
structure Watched where
  client : Client
  note : Option Path
  puts : List Put

/-- The note of the call after a step. -/
def noteAfter (w : Watched) : Client.Action → Option Path
  | .summarise _ => w.client.ed.openPath
  | .editor (.pathMoved oldPath newPath) => w.note.map (moved oldPath newPath)
  | _ => w.note

/-- The summary a step puts, if it does. -/
def putBy (w : Watched) (c' : Client) : Option Put :=
  match c'.call, w.client.call.current, w.client.ed.openPath with
  | .putting, some current, some openPath => some ⟨w.note, current, openPath, w.client.ed.text⟩
  | _, _, _ => none

def Watched.step (fallback : Fallback) (w : Watched) (a : Client.Action) : Option Watched :=
  (w.client.step fallback a).map fun c' => ⟨c', noteAfter w a, w.puts ++ (putBy w c').toList⟩

/-- A session in review over an editor. -/
def start (ed : Editor) (session : MeetingSession) : Watched :=
  ⟨{ ed := ed, state := .reviewing, session := some session }, none, []⟩

/-! ### The condition -/

/-- The step leaves the text as it is and opens no other note. -/
def Leaves (ed : Editor) : Editor.Action → Prop
  | .edit text => text = ed.text
  | .complete i .ok =>
    ∀ path, ed.tasks[i]? = some (.reading path) → ∀ raw, ed.disk path = some raw →
      ed.openPath = some path ∧ normalizeNewlines raw = ed.text
  | _ => True

/-- **Until the summary is put, nothing changes the text and no other note is opened.** -/
def Undisturbed (w : Watched) : Client.Action → Prop
  | .editor a => w.client.call.current.isSome → Leaves w.client.ed a
  | _ => True

/-- In every run whose steps meet `ok`, every summary replaces the text it is composed from, in its note. -/
def RightNote (fallback : Fallback) (ed : Editor) (session : MeetingSession)
    (ok : Watched → Client.Action → Prop) : Prop :=
  ∀ w, Reach (Watched.step fallback) ok (start ed session) w → ∀ p ∈ w.puts, p.Right

/-! ### The invariant -/

/-- The editor shows the text the call composes with, in its note, or no note. -/
def Shows (w : Watched) : Prop :=
  ∀ current ∈ w.client.call.current, ∀ path ∈ w.client.ed.openPath,
    w.note = some path ∧ w.client.ed.text = current

/-- The puts so far are right, and so will be the next. -/
structure Inv (w : Watched) : Prop where
  shows : Shows w
  right : ∀ p ∈ w.puts, p.Right

/-- The note an editor step leaves in the place of another. -/
def renamed : Editor.Action → Path → Path
  | .pathMoved oldPath newPath => moved oldPath newPath
  | _ => id

/-- A task that goes on opens a note only by reading it. -/
theorem openPath_goOn (ed : Editor) (outcome : Outcome) (t : Task) {path : Path}
    (hp : (ed.goOn outcome t).openPath = some path)
    (hread : ∀ q, t = .reading q → outcome = .ok → ∀ raw, ed.disk q = some raw →
      ed.openPath = some q ∧ normalizeNewlines raw = ed.text) :
    ed.openPath = some path ∧ (ed.goOn outcome t).text = ed.text := by
  cases t with
  | writing q content caller =>
    cases outcome <;> exact ⟨by simpa [Editor.goOn, Editor.written] using hp, by simp [Editor.goOn, Editor.written]⟩
  | flushed q => exact ⟨hp, rfl⟩
  | reading q =>
    cases outcome with
    | failed _ _ => exact ⟨hp, rfl⟩
    | ok =>
      simp only [Editor.goOn, Editor.readDone] at hp ⊢
      cases hd : ed.disk q with
      | none =>
        rw [hd] at hp
        exact ⟨hp, rfl⟩
      | some raw =>
        rw [hd] at hp
        obtain ⟨ho, htext⟩ := hread q rfl rfl raw hd
        obtain rfl : q = path := by simpa using hp
        exact ⟨ho, htext⟩

/-- What an editor step that leaves the text does: the note stays, is renamed, or is closed. -/
theorem openPath_step {ed ed' : Editor} {a : Editor.Action} (hset : ∀ markdown, a ≠ .setContent markdown)
    (hl : Leaves ed a) (hs : ed.step a = some ed') {path : Path} (hp : ed'.openPath = some path) :
    ∃ p, ed.openPath = some p ∧ path = renamed a p ∧ ed'.text = ed.text := by
  cases a with
  | edit text =>
    simp only [Editor.step, Option.some.injEq] at hs
    subst hs
    unfold Editor.edit at hp ⊢
    split_ifs at hp ⊢ <;> exact ⟨path, hp, rfl, hl⟩
  | fire =>
    simp only [Editor.step, Option.ite_none_right_eq_some, Option.some.injEq] at hs
    obtain ⟨-, rfl⟩ := hs
    exact ⟨path, by simpa using hp, rfl, by simp⟩
  | «open» q =>
    simp only [Editor.step, Option.some.injEq] at hs
    subst hs
    unfold Editor.openFile at hp ⊢
    split_ifs at hp ⊢
    · exact ⟨path, hp, rfl, rfl⟩
    · exact ⟨path, by simpa using hp, rfl, by simp⟩
  | setContent markdown => exact absurd rfl (hset markdown)
  | saveNow =>
    simp only [Editor.step, Option.some.injEq] at hs
    subst hs
    exact ⟨path, by simpa using hp, rfl, by simp⟩
  | pathMoved oldPath newPath =>
    simp only [Editor.step, Option.some.injEq] at hs
    subst hs
    obtain ⟨p, ho, rfl⟩ := Option.map_eq_some_iff.mp hp
    exact ⟨p, ho, rfl, rfl⟩
  | pathDeleted q =>
    simp only [Editor.step, Option.some.injEq] at hs
    subst hs
    cases ho : ed.openPath with
    | none => simp [Editor.handlePathDeleted, ho] at hp
    | some p =>
      by_cases hq : q <+: p
      · simp [Editor.handlePathDeleted, ho, hq] at hp
      · simp only [Editor.handlePathDeleted, ho, if_neg hq] at hp ⊢
        exact ⟨path, ho ▸ hp, rfl, trivial⟩
  | complete i outcome =>
    simp only [Editor.step, Option.map_eq_some_iff] at hs
    obtain ⟨t, ht, rfl⟩ := hs
    obtain ⟨ho, htext⟩ := openPath_goOn { ed with tasks := ed.tasks.eraseIdx i } outcome t hp (by
      rintro q rfl rfl
      exact hl q ht)
    exact ⟨path, ho, rfl, htext⟩

/-- A call that starts composes with the text shown. -/
theorem summarise_cases (c : Client) (isConnected : Bool) : c.summarise isConnected = c ∨
    ((c.summarise isConnected).ed = c.ed ∧ (c.summarise isConnected).call.current = some c.ed.text) := by
  unfold Client.summarise
  split
  · split_ifs
    · exact Or.inl rfl
    · exact Or.inr ⟨rfl, rfl⟩
    · exact Or.inr ⟨rfl, rfl⟩
  · exact Or.inl rfl

/-- Waiting for the engine, a call keeps the editor and its text, or it has ended. -/
theorem current_await (c : Client) (current : Text) (t : Notely.Engine.Domain.Transcript)
    (jobId : Notely.Engine.Jobs.JobId) (heard : Heard) :
    (c.await current t jobId heard).call.current = none ∨
      ((c.await current t jobId heard).call.current = some current ∧
        (c.await current t jobId heard).ed = c.ed) := by
  unfold Client.await
  cases heard.done with
  | none => exact Or.inr ⟨rfl, rfl⟩
  | some r =>
    cases r with
    | ok id => exact Or.inr ⟨rfl, rfl⟩
    | error e => exact Or.inl rfl

/-- A step that is not the editor's and starts no call keeps the editor and the text of the call, or the
call is past composing. -/
theorem current_step {fallback : Fallback} {c c' : Client} {a : Client.Action}
    (he : ∀ b, a ≠ .editor b) (hsum : ∀ b, a ≠ .summarise b) (hs : c.step fallback a = some c') :
    c'.call.current = none ∨ (c'.call.current = c.call.current ∧ c'.ed = c.ed) := by
  cases a with
  | editor b => exact absurd rfl (he b)
  | summarise b => exact absurd rfl (hsum b)
  | hear event =>
    simp only [Client.step, Option.some.injEq] at hs
    subst hs
    cases hc : c.call with
    | listening current t jobId heard =>
      simp only [Client.hear, hc]
      exact current_await c current t jobId (heard.hear event)
    | _ => simp [Client.hear, hc, Call.current]
  | accepted jobId =>
    cases hc : c.call with
    | submitting current t heard =>
      simp only [Client.step, hc, Option.some.injEq] at hs
      subst hs
      exact current_await c current t jobId heard
    | _ => simp [Client.step, hc] at hs
  | summarised | requestFailed _ | timeout | written =>
    left
    cases hc : c.call <;> simp [Client.step, hc] at hs
    all_goals first
      | (subst hs; rfl)
      | (obtain ⟨-, rfl⟩ := hs; rfl)
  | fetched result =>
    left
    cases hc : c.call <;> cases result <;> simp [Client.step, hc] at hs
    all_goals
      subst hs
      rfl

theorem inv_start (ed : Editor) (session : MeetingSession) : Inv (start ed session) where
  shows := nofun
  right := nofun

/-- While the editor shows what the call composes with, a summary put is right. -/
theorem right_putBy {w : Watched} (h : Shows w) {c' : Client} {p : Put} (hp : putBy w c' = some p) :
    p.Right := by
  unfold putBy at hp
  split at hp
  · next current path _ hcur hopen =>
    cases hp
    exact h current hcur path hopen
  · exact absurd hp nofun

theorem shows_step {fallback : Fallback} {w w' : Watched} {a : Client.Action} (h : Shows w)
    (hok : Undisturbed w a) (hs : w.step fallback a = some w') : Shows w' := by
  obtain ⟨c', hc, rfl⟩ := Option.map_eq_some_iff.mp hs
  intro current hcur path hopen
  cases a with
  | editor b =>
    have hb : ∀ markdown, b ≠ .setContent markdown := by
      rintro markdown rfl
      exact absurd hc nofun
    have hc : (w.client.ed.step b).map (fun ed => { w.client with ed := ed }) = some c' := by
      cases b with
      | setContent markdown => exact absurd rfl (hb markdown)
      | _ => exact hc
    obtain ⟨ed', hed, rfl⟩ := Option.map_eq_some_iff.mp hc
    obtain ⟨q, hq, rfl, ht⟩ := openPath_step hb (hok (Option.isSome_iff_exists.mpr ⟨current, hcur⟩)) hed hopen
    obtain ⟨hnote, htext⟩ := h current hcur q hq
    refine ⟨?_, ht.trans htext⟩
    cases b <;> simp [noteAfter, renamed, hnote]
  | summarise isConnected =>
    simp only [Client.step, Option.ite_none_right_eq_some, Option.some.injEq] at hc
    obtain ⟨hnone, rfl⟩ := hc
    rcases summarise_cases w.client isConnected with he | ⟨hed, hcall⟩
    · rw [he, hnone] at hcur
      exact absurd hcur nofun
    · rw [hcall] at hcur
      cases hcur
      exact ⟨(congrArg Editor.openPath hed).symm.trans hopen, congrArg Editor.text hed⟩
  | _ =>
    rcases current_step (by simp) (by simp) hc with hn | ⟨he, hed⟩
    · exact absurd (hn.symm.trans hcur) nofun
    · exact hed ▸ h current (he ▸ hcur) path (hed ▸ hopen)

/-- **The step lemma.** -/
theorem inv_step {fallback : Fallback} {w w' : Watched} {a : Client.Action} (hi : Inv w)
    (hok : Undisturbed w a) (hs : w.step fallback a = some w') : Inv w' := by
  refine ⟨shows_step hi.shows hok hs, fun p hp => ?_⟩
  obtain ⟨c', hc, rfl⟩ := Option.map_eq_some_iff.mp hs
  rcases List.mem_append.mp hp with hp | hp
  · exact hi.right p hp
  · exact right_putBy hi.shows (Option.mem_toList.mp hp)

/-- **Undisturbed, every summary goes where it belongs.** -/
theorem summary_right (fallback : Fallback) (ed : Editor) (session : MeetingSession) :
    RightNote fallback ed session Undisturbed :=
  fun _ h => (h.inv (inv_start ed session) fun _ _ _ hi hok hs => inv_step hi hok hs).right

/-- Two notes, `a` with the text `o` and `b` with the text `n`. -/
def twoNotes (p : Path) : Option Text :=
  if p = [['a']] then some ['o'] else if p = [['b']] then some ['n'] else none

/-- The engine takes its time. -/
def summarised : List Client.Action :=
  [.editor (.open [['a']]), .editor (.complete 0 .ok), .editor (.complete 0 .ok), .summarise true,
    .accepted ['j']]

/-- The note `b` is opened. -/
def opened : List Client.Action :=
  [.editor (.open [['b']]), .editor (.complete 0 .ok), .editor (.complete 0 .ok)]

/-- The job completes and its minutes are fetched. -/
def completed : List Client.Action := [.hear (.jobCompleted ['j'] ['m']), .fetched (.ok ['s'])]

/-- A session of which nothing was transcribed. -/
def silent : MeetingSession := ⟨some [['a']], []⟩

/-- Left alone, the summary replaces the text of its note. -/
example : ((run (Watched.step fun _ t => t) (start (Editor.new twoNotes) silent)
    (summarised ++ completed)).map fun w => w.puts.map fun p => (p.openPath, p.replaced, w.client.ed.text)) =
    some [([['a']], ['o'], ['o', '\n', '\n', 's'])] := rfl

/-- **A note opened in the meantime is overwritten with the summary of another.** -/
theorem summary_wrong : ¬ ∀ (fallback : Fallback) (ed : Editor) (session : MeetingSession),
    RightNote fallback ed session fun _ _ => True := by
  intro h
  obtain ⟨w, hw⟩ : ∃ w, run (Watched.step fun _ t => t) (start (Editor.new twoNotes) silent)
    (summarised ++ opened ++ completed) = some w := ⟨_, rfl⟩
  have hr : Reach (Watched.step fun _ t => t) (fun _ _ => True) (start (Editor.new twoNotes) silent) w :=
    Reach.of_run (by decide) hw
  have hputs : w.puts = [⟨some [['a']], ['o'], [['b']], ['n']⟩] := by
    cases hw
    rfl
  exact absurd (h _ _ _ w hr _ (hputs ▸ List.mem_singleton_self _)).1 (by decide)

end Notely.Desktop.SummaryNote
