import Notely.Desktop.EditorState
import Notely.Lib.Utf8

/-! # Saving a file as it was opened

`open` remembers one line ending for a file and normalizes all of them, and `saveNow` puts the one back. `readAsString`
and `writeAsString` decode and encode UTF-8, the first without the U+FEFF at the start.

* `Uniform`: the line ends of a text are of one of the two kinds.
* `restored_iff`: `_applyEol` undoes `_normalizeNewlines` exactly on such texts.
* `keeps_iff`: a file that is opened and saved without a change keeps its bytes exactly if it has one kind of line end
  and no mark at its start. -/

namespace Notely.Desktop.LineEndings

open Notely.Lib.Strings Notely.Lib.Paths Notely.Lib.Lts Notely.Lib.Utf8 Notely.Desktop.EditorState

/-! ### Line ends -/

/-- Every `\r` comes before a `\n`, and every `\n` after a `\r`; the text comes after a `\r` or not. -/
def crlfOnly : Bool → Text → Bool
  | cr, [] => ! cr
  | cr, c :: s => if cr then c == '\n' && crlfOnly false s else c != '\n' && crlfOnly (c == '\r') s

/-- **The line ends are all `\n`, or all `\r\n`.** -/
def Uniform (s : Text) : Prop := '\r' ∉ s ∨ crlfOnly false s = true

instance (s : Text) : Decidable (Uniform s) := inferInstanceAs (Decidable (_ ∨ _))

section Normalize
variable {c : Char} {s : Text}

theorem normalize_crlf : normalizeNewlines ('\r' :: '\n' :: s) = '\n' :: normalizeNewlines s := by
  have hcrlf : replaceAll ['\r', '\n'] ['\n'] ('\r' :: '\n' :: s) = '\n' :: replaceAll ['\r', '\n'] ['\n'] s := by
    unfold replaceAll
    rw [replaceFrom, if_pos (by simp)]
    rfl
  rw [normalizeNewlines, hcrlf, replaceAll_singleton, List.flatMap_cons, if_neg (by decide), ← replaceAll_singleton]
  rfl

theorem replaceAll_crlf_cons (h : ¬ ['\r', '\n'] <+: c :: s) :
    replaceAll ['\r', '\n'] ['\n'] (c :: s) = c :: replaceAll ['\r', '\n'] ['\n'] s := by
  unfold replaceAll
  rw [replaceFrom, if_neg h]

theorem normalize_cr (h : s.head? ≠ some '\n') : normalizeNewlines ('\r' :: s) = '\n' :: normalizeNewlines s := by
  have hpre : ¬ ['\r', '\n'] <+: '\r' :: s := by
    rintro ⟨t, ht⟩
    rw [← (List.cons.inj ht).2] at h
    exact h rfl
  rw [normalizeNewlines, replaceAll_crlf_cons hpre, replaceAll_singleton, List.flatMap_cons, if_pos rfl,
    ← replaceAll_singleton]
  rfl

theorem normalize_cons (h : c ≠ '\r') : normalizeNewlines (c :: s) = c :: normalizeNewlines s := by
  have hpre : ¬ ['\r', '\n'] <+: c :: s := by
    rintro ⟨t, ht⟩
    exact h (List.cons.inj ht).1.symm
  rw [normalizeNewlines, replaceAll_crlf_cons hpre, replaceAll_singleton, List.flatMap_cons, if_neg h,
    ← replaceAll_singleton]
  rfl

theorem applyEol_feed (u : Text) : applyEol .crlf ('\n' :: u) = '\r' :: '\n' :: applyEol .crlf u := by
  show replaceAll ['\n'] ['\r', '\n'] ('\n' :: u) = '\r' :: '\n' :: replaceAll ['\n'] ['\r', '\n'] u
  rw [replaceAll_singleton, List.flatMap_cons, if_pos rfl, ← replaceAll_singleton]
  rfl

theorem applyEol_cons (h : c ≠ '\n') (u : Text) : applyEol .crlf (c :: u) = c :: applyEol .crlf u := by
  show replaceAll ['\n'] ['\r', '\n'] (c :: u) = c :: replaceAll ['\n'] ['\r', '\n'] u
  rw [replaceAll_singleton, List.flatMap_cons, if_neg h, ← replaceAll_singleton]
  rfl

/-- No carriage return is left. -/
theorem cr_notMem_normalize (s : Text) : '\r' ∉ normalizeNewlines s := by
  rw [normalizeNewlines, replaceAll_singleton, List.mem_flatMap]
  rintro ⟨c, -, hc⟩
  split_ifs at hc with h
  · exact absurd hc (by decide)
  · rw [List.mem_singleton] at hc
    exact h hc.symm

theorem normalize_of_notMem (h : '\r' ∉ s) : normalizeNewlines s = s := by
  induction s with
  | nil => rfl
  | cons c s ih =>
    rw [List.mem_cons, not_or] at h
    rw [normalize_cons (Ne.symm h.1), ih h.2]

/-- **Two bytes are put back for every line end.** -/
theorem applyEol_crlf_iff (s : Text) : applyEol .crlf (normalizeNewlines s) = s ↔ crlfOnly false s = true := by
  induction hn : s.length using Nat.strong_induction_on generalizing s with
  | _ n ih =>
    cases s with
    | nil => simp [normalizeNewlines, replaceAll, replaceFrom, applyEol, crlfOnly]
    | cons c s =>
      by_cases hcr : c = '\r'
      · subst hcr
        by_cases hnext : s.head? = some '\n'
        · obtain ⟨t, rfl⟩ := List.head?_eq_some_iff.mp hnext
          have hrest := ih t.length (by simp only [List.length_cons] at hn; omega) t rfl
          rw [normalize_crlf, applyEol_feed, List.cons.injEq, List.cons.injEq, hrest]
          simp [crlfOnly]
        · have hno : crlfOnly false ('\r' :: s) = false := by
            cases s with
            | nil => rfl
            | cons d t =>
              have hd : d ≠ '\n' := by simpa using hnext
              simp [crlfOnly, hd]
          rw [normalize_cr hnext, applyEol_feed, hno]
          constructor
          · intro heq
            exact absurd (by rw [← (List.cons.inj heq).2]; rfl) hnext
          · exact fun h => absurd h (by decide)
      · rw [normalize_cons hcr]
        by_cases hfeed : c = '\n'
        · subst hfeed
          rw [applyEol_feed]
          simp [crlfOnly]
        · have hrest := ih s.length (by simp only [List.length_cons] at hn; omega) s rfl
          have hnot : (c == '\r') = false := by simpa using hcr
          rw [applyEol_cons hfeed, List.cons.injEq, eq_self_iff_true, true_and, hrest]
          simp [crlfOnly, hfeed, hnot]

theorem head?_of_crlfOnly {cr : Bool} {a b : Text} (h : crlfOnly cr (a ++ '\r' :: b) = true) :
    b.head? = some '\n' := by
  induction a generalizing cr with
  | nil =>
    cases cr with
    | true => exact absurd h (by simp [crlfOnly])
    | false =>
      cases b with
      | nil => exact absurd h (by decide)
      | cons d b => simpa [crlfOnly] using (show d = '\n' ∧ crlfOnly false b = true by simpa [crlfOnly] using h).1
  | cons c a ih =>
    rw [List.cons_append, crlfOnly] at h
    split_ifs at h with hcr
    · exact ih (Bool.and_eq_true_iff.mp h).2
    · exact ih (Bool.and_eq_true_iff.mp h).2

/-- **What is remembered of the line ends restores the text exactly if they are of one kind.** -/
theorem restored_iff (s : Text) : applyEol (eolOf s) (normalizeNewlines s) = s ↔ Uniform s := by
  unfold eolOf Uniform
  split_ifs with hcrlf
  · have hmem : '\r' ∈ s := hcrlf.subset (by simp)
    rw [applyEol_crlf_iff]
    simp [hmem]
  · have hlf : applyEol .lf (normalizeNewlines s) = normalizeNewlines s := rfl
    rw [hlf]
    constructor
    · intro heq
      left
      rw [← heq]
      exact cr_notMem_normalize s
    · rintro (hmem | honly)
      · exact normalize_of_notMem hmem
      · refine normalize_of_notMem fun hmem => hcrlf ?_
        obtain ⟨a, b, rfl⟩ := List.append_of_mem hmem
        obtain ⟨t, rfl⟩ := List.head?_eq_some_iff.mp (head?_of_crlfOnly honly)
        exact ⟨a, t, by simp⟩

end Normalize

/-! ### Files -/

/-- `readAsString`. -/
def readAsString (bytes : List ℕ) : Option Text := (strict bytes).map dropBom

/-- `writeAsString`. -/
def writeAsString (s : Text) : List ℕ := encode s

/-- How a save is forced without a change: the user types and undoes it and the timer fires or a save is asked for, or
`setContent` sets the text that is there. -/
inductive Forced
  | typed (texts : List Text) (timer : Bool)
  | setContent

/-- The actions, of the text that was opened. -/
def Forced.actions (text : Text) : Forced → List Editor.Action
  | .typed texts timer => texts.map .edit ++ [.edit text, if timer then .fire else .saveNow]
  | .setContent => [.setContent text]

/-- **The file keeps its bytes**: whenever it is opened and a save is forced, what is written are its bytes. -/
def Keeps (bytes : List ℕ) : Prop :=
  ∀ (e : Editor) (i : ℕ) (path : Path) (raw : Text) (f : Forced), readAsString bytes = some raw →
    e.tasks[i]? = some (.reading path) → e.disk path = some raw →
    ∃ e' content caller, run Editor.step e (.complete i .ok :: f.actions (normalizeNewlines raw)) = some e' ∧
      e'.tasks.getLast? = some (.writing path content caller) ∧ writeAsString content = bytes

section Session
variable {e : Editor} {path : Path} {text : Text}

/-- What the user types stays in the buffer of the open file. -/
theorem run_edits (texts : List Text) (h : e.openPath = some path) :
    ∃ e', run Editor.step e (texts.map .edit) = some e' ∧ e'.openPath = some path ∧ e'.eol = e.eol := by
  induction texts generalizing e with
  | nil => exact ⟨e, rfl, h, rfl⟩
  | cons t texts ih =>
    have hopen : (e.edit t).openPath = some path := by simp [Editor.edit, h]
    have heol : (e.edit t).eol = e.eol := by simp [Editor.edit, h]
    obtain ⟨e', hrun, hpath, heol'⟩ := ih hopen
    exact ⟨e', hrun, hpath, heol'.trans heol⟩

/-- A dirty file is written with its line ending. -/
theorem saveNow_writes (caller : Caller) (h : e.openPath = some path) (hdirty : e.dirty = true) :
    (e.saveNow caller).tasks.getLast? = some (.writing path (applyEol e.eol e.text) caller) := by
  rw [Editor.saveNow, h, hdirty]
  exact List.getLast?_concat

/-- **A forced save writes the text that was opened, with the line ending of the file.** -/
theorem forced_writes (f : Forced) (h : e.openPath = some path) : ∃ e' caller,
    run Editor.step e (f.actions text) = some e' ∧
      e'.tasks.getLast? = some (.writing path (applyEol e.eol text) caller) := by
  cases f with
  | typed texts timer =>
    obtain ⟨e₁, hrun, hpath, heol⟩ := run_edits texts h
    have hedit : e₁.edit text = { e₁ with text := text, dirty := true, saveTimer := true } := by
      simp [Editor.edit, hpath]
    rw [Forced.actions, run_append, hrun, Option.bind_some, ← heol]
    cases timer with
    | true =>
      refine ⟨(e₁.edit text).saveNow .timer, .timer, ?_, ?_⟩
      · simp [run, Editor.step, hedit]
      · rw [hedit]
        exact saveNow_writes .timer hpath rfl
    | false =>
      refine ⟨(e₁.edit text).saveNow .other, .other, ?_, ?_⟩
      · simp [run, Editor.step]
      · rw [hedit]
        exact saveNow_writes .other hpath rfl
  | setContent =>
    refine ⟨{ e with text := text, dirty := true }.saveNow .setContent, .setContent, ?_, ?_⟩
    · simp [Forced.actions, run, Editor.step, Editor.setContent, h]
    · exact saveNow_writes .setContent h rfl

/-- What is written when a file was opened. -/
theorem opened_writes {i : ℕ} {raw : Text} {f : Forced} (htask : e.tasks[i]? = some (.reading path))
    (hdisk : e.disk path = some raw) : ∃ e' caller,
    run Editor.step e (.complete i .ok :: f.actions (normalizeNewlines raw)) = some e' ∧
      e'.tasks.getLast? = some (.writing path (applyEol (eolOf raw) (normalizeNewlines raw)) caller) := by
  have hstep : ∃ e₁, e.step (.complete i .ok) = some e₁ ∧ e₁.openPath = some path ∧ e₁.eol = eolOf raw := by
    simp only [Editor.step, htask, Option.map_some, Editor.goOn, Editor.readDone, hdisk]
    exact ⟨_, rfl, rfl, rfl⟩
  obtain ⟨e₁, hstep, hpath, heol⟩ := hstep
  obtain ⟨e', caller, hrun, hlast⟩ : ∃ e' caller, run Editor.step e₁ (f.actions (normalizeNewlines raw)) = some e' ∧
      e'.tasks.getLast? = some (.writing path (applyEol e₁.eol (normalizeNewlines raw)) caller) :=
    forced_writes f hpath
  rw [heol] at hlast
  exact ⟨e', caller, by rw [run, hstep]; exact hrun, hlast⟩

end Session

section Bytes
variable {bytes : List ℕ} {t : Text}

theorem encode_injective {s t : Text} (h : encode s = encode t) : s = t := by
  have hs := strict_encode s
  rw [h, strict_encode] at hs
  exact (Option.some.inj hs).symm

/-- A mark at the start is not read, so that there is one less of them to write. -/
theorem dropBom_eq_self_iff : dropBom t = t ↔ t.head? ≠ some bom := by
  cases t with
  | nil => simp [dropBom]
  | cons c t => by_cases hc : c = bom <;> simp [dropBom, hc]

theorem count_normalize {c : Char} (hr : c ≠ '\r') (hn : c ≠ '\n') (s : Text) :
    (normalizeNewlines s).count c = s.count c := by
  induction hlen : s.length using Nat.strong_induction_on generalizing s with
  | _ n ih =>
    cases s with
    | nil => rfl
    | cons d s =>
      have hrest := ih s.length (by simp only [List.length_cons] at hlen; omega) s rfl
      by_cases hcr : d = '\r'
      · subst hcr
        by_cases hnext : s.head? = some '\n'
        · obtain ⟨t, rfl⟩ := List.head?_eq_some_iff.mp hnext
          rw [normalize_cons (by decide), List.count_cons_of_ne (Ne.symm hn), List.count_cons_of_ne (Ne.symm hn)]
            at hrest
          rw [normalize_crlf, List.count_cons_of_ne (Ne.symm hn), hrest, List.count_cons_of_ne (Ne.symm hr),
            List.count_cons_of_ne (Ne.symm hn)]
        · rw [normalize_cr hnext, List.count_cons_of_ne (Ne.symm hn), hrest, List.count_cons_of_ne (Ne.symm hr)]
      · rw [normalize_cons hcr, List.count_cons, List.count_cons, hrest]

theorem count_applyEol {c : Char} (hr : c ≠ '\r') (hn : c ≠ '\n') (eol : Eol) (s : Text) :
    (applyEol eol s).count c = s.count c := by
  cases eol with
  | lf => rfl
  | crlf =>
    induction s with
    | nil => rfl
    | cons d s ih =>
      by_cases hfeed : d = '\n'
      · subst hfeed
        rw [applyEol_feed, List.count_cons_of_ne (Ne.symm hr), List.count_cons_of_ne (Ne.symm hn), ih,
          List.count_cons_of_ne (Ne.symm hn)]
      · rw [applyEol_cons hfeed, List.count_cons, List.count_cons, ih]

/-- What is written is the text exactly if it has no mark to lose and its line ends are of one kind. -/
theorem written_iff : applyEol (eolOf (dropBom t)) (normalizeNewlines (dropBom t)) = t ↔
    t.head? ≠ some bom ∧ Uniform t := by
  by_cases hbom : t.head? = some bom
  · obtain ⟨raw, rfl⟩ := List.head?_eq_some_iff.mp hbom
    have hdrop : dropBom (bom :: raw) = raw := by rw [dropBom, if_pos rfl]
    rw [hdrop]
    constructor
    · intro heq
      have hcount := congrArg (List.count bom) heq
      rw [count_applyEol (by decide) (by decide), count_normalize (by decide) (by decide), List.count_cons_self]
        at hcount
      omega
    · exact fun h => absurd hbom h.1
  · rw [dropBom_eq_self_iff.mpr hbom, restored_iff]
    exact ⟨fun h => ⟨hbom, h⟩, And.right⟩

theorem kept_iff (h : strict bytes = some t) : Keeps bytes ↔ t.head? ≠ some bom ∧ Uniform t := by
  have hread : readAsString bytes = some (dropBom t) := by rw [readAsString, h]; rfl
  have hbytes : bytes = encode t := strict_eq_some.mp h
  rw [← written_iff]
  constructor
  · intro hkeeps
    -- one opening is enough
    let e : Editor := { Editor.new fun _ => some (dropBom t) with tasks := [.reading []] }
    obtain ⟨e₁, content, caller, hrun, hlast, hsame⟩ := hkeeps e 0 [] (dropBom t) .setContent hread rfl rfl
    obtain ⟨e₂, caller', hrun', hlast'⟩ :=
      opened_writes (e := e) (i := 0) (show e.tasks[0]? = some (.reading []) from rfl) (show e.disk [] = _ from rfl)
    rw [hrun', Option.some.injEq] at hrun
    rw [← hrun, hlast', Option.some.injEq] at hlast
    have hcontent := (Task.writing.inj hlast).2.1
    exact hcontent.trans (encode_injective (hsame.trans hbytes))
  · intro hsame e i path raw f hraw htask hdisk
    rw [hread, Option.some.injEq] at hraw
    subst hraw
    obtain ⟨e', caller, hrun, hlast⟩ := opened_writes htask hdisk
    refine ⟨e', _, caller, hrun, hlast, ?_⟩
    rw [hsame, hbytes]
    rfl

end Bytes

/-- **A file keeps its bytes exactly if its line ends are of one kind and it has no mark at its start.** -/
theorem keeps_iff (bytes : List ℕ) (t : Text) (h : strict bytes = some t) :
    Keeps bytes ↔ t.head? ≠ some bom ∧ Uniform t :=
  kept_iff h

/-- A file of Windows. -/
theorem keeps_crlf : Keeps (encode "# Notes\r\n\r\nfirst\r\n".toList) :=
  (keeps_iff _ _ (strict_encode _)).mpr (by decide)

/-- A file of Windows to which a line was added elsewhere: the line end of that line changes. -/
theorem not_keeps_mixed : ¬ ∀ bytes t, strict bytes = some t → Keeps bytes := by
  intro h
  have hkept := (kept_iff (strict_encode "a\r\nb\n".toList)).mp (h _ _ (strict_encode _))
  exact absurd hkept (by decide)

end Notely.Desktop.LineEndings
