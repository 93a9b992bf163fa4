import Mathlib.Data.List.Basic
import Notely.Desktop.ReadTree
import Notely.Lib.Lts

/-! # The explorer's tree

`setRoot` and `refresh` of `features/explorer/explorer_state.dart`. Every refresh starts a read of the root it
finds, and the read that ends puts what it has read into the tree; nothing tells it that the root has changed
meanwhile, or that another read was started. The reads under way take their looks at the disk, get the answers and
end in any order. A look is kept with the number of refreshes asked for when it was taken, which the code does not
know.

* `step`: a user action, an external change, a look at the disk or its answer.
* `Current`: the tree is a reading of the root, no look of it older than the last refresh.
* `current_of_inTurn`: **the tree is current** when nothing is under way, if no read ends out of turn. -/

namespace Notely.Desktop.ExplorerTree

open Notely.Lib Notely.Lib.Lts Notely.Lib.Strings Notely.Lib.Paths Notely.Desktop.ReadTree

/-! ### The state -/

/-- A look at the disk, with the number of refreshes asked for at the time. -/
structure Look where
  requests : ℕ
  disk : Disk

/-- A `readTree` under way: the number of its refresh, the looks whose answers it has, and the one on its way. -/
structure Read where
  root : Path
  asked : ℕ
  looks : List Look := []
  pending : Option Look := none

/-- `ExplorerController`, with the disk and the reads under way; `shown` is the read last put into the tree. -/
structure Explorer where
  disk : Disk
  rootPath : Option Path := none
  targetDir : Option Path := none
  selectedPath : Option Path := none
  expanded : List Path := []
  watched : Option Path := none
  roots : List FsNode := []
  error : Option Text := none
  requests : ℕ := 0
  reads : List Read := []
  shown : Option Read := none

inductive Action
  | setRoot (rootPath : Path)
  /-- `refresh`, called by an operation of the user or by `_onExternalChange`. -/
  | refresh
  /-- The disk changes. -/
  | change (disk : Disk)
  /-- A read takes its next look. -/
  | look (i : ℕ)
  /-- A read gets the answer, and goes on or ends. -/
  | resume (i : ℕ)

section Step
variable (lower : Text → Text) (byName : List FsNode → List FsNode)

/-- How far a read is. -/
def Read.progress (r : Read) : Progress := readTree lower byName r.root (r.looks.map Look.disk)

/-- The answer on its way arrives. -/
def Read.arrive (r : Read) : Read := { r with looks := r.looks ++ r.pending.toList, pending := none }

namespace Explorer

/-- `refresh`, up to its first suspension. -/
def refresh (s : Explorer) : Explorer :=
  match s.rootPath with
  | none => s
  | some rootPath =>
    { s with requests := s.requests + 1, reads := s.reads ++ [{ root := rootPath, asked := s.requests + 1 }] }

/-- `setRoot`, up to its first suspension. -/
def setRoot (s : Explorer) (rootPath : Path) : Explorer :=
  { s with
    rootPath := some rootPath
    targetDir := some rootPath
    selectedPath := none
    expanded := []
    watched := some rootPath }.refresh

/-- The rest of `refresh`. -/
def finish (s : Explorer) (i : ℕ) (r : Read) : Explorer :=
  match r.progress lower byName with
  | .done roots => { s with roots := roots, error := none, reads := s.reads.eraseIdx i, shown := some r }
  | .failed message =>
    { s with
      roots := []
      error := some ("Could not read stash: ".toList ++ message)
      reads := s.reads.eraseIdx i
      shown := some r }
  | _ => { s with reads := s.reads.set i r }

/-- **A user action, an external change, a look at the disk or its answer.** -/
def step (s : Explorer) : Action → Option Explorer
  | .setRoot rootPath => some (s.setRoot rootPath)
  | .refresh => some s.refresh
  | .change disk => some { s with disk := disk }
  | .look i =>
    match s.reads[i]? with
    | some r =>
      if r.pending.isNone then
        some { s with reads := s.reads.set i { r with pending := some ⟨s.requests, s.disk⟩ } }
      else none
    | none => none
  | .resume i =>
    match s.reads[i]? with
    | some r => if r.pending.isSome then some (s.finish lower byName i r.arrive) else none
    | none => none

/-- **The tree is current**: what the read shown has made of the root, no look of it older than the last refresh. -/
def Current (s : Explorer) : Prop :=
  ∀ rootPath, s.rootPath = some rootPath → ∃ r, s.shown = some r ∧ r.root = rootPath ∧
    s.roots = (r.progress lower byName).nodes ∧ ∀ l ∈ r.looks, s.requests ≤ l.requests

/-- The read has ended. -/
def Ended : Progress → Prop
  | .done _ | .failed _ => True
  | .checking _ _ | .listing _ _ => False

/-- A read that ends after the last one asked for is of the root, and has not looked before that was asked for. -/
def InTurn (s : Explorer) : Action → Prop
  | .resume i => ∀ r, s.reads[i]? = some r → Ended (r.arrive.progress lower byName) →
      s.requests ∈ s.reads.map Read.asked ∨
        s.rootPath = some r.root ∧ ∀ l ∈ r.arrive.looks, s.requests ≤ l.requests
  | _ => True

end Explorer
end Step

/-! ### No read ends out of turn -/

section Runs
variable {lower : Text → Text} {byName : List FsNode → List FsNode} {s s' : Explorer} {a : Action} {i : ℕ} {r : Read}

/-- A read under way: its looks are not older than its refresh, and the last one asked for is of the root. -/
structure Fits (s : Explorer) (r : Read) : Prop where
  asked : r.asked ≤ s.requests
  root : r.asked = s.requests → s.rootPath = some r.root
  looks : ∀ l ∈ r.arrive.looks, r.asked ≤ l.requests

/-- The last read asked for is under way, or the tree is current. -/
structure Fresh (lower : Text → Text) (byName : List FsNode → List FsNode) (s : Explorer) : Prop where
  fits : ∀ r ∈ s.reads, Fits s r
  last : s.requests ∈ s.reads.map Read.asked ∨ s.Current lower byName

theorem fresh_refresh (h : ∀ r ∈ s.reads, r.asked ≤ s.requests ∧ ∀ l ∈ r.arrive.looks, r.asked ≤ l.requests)
    (hlast : s.rootPath = none → Fresh lower byName s) : Fresh lower byName s.refresh := by
  unfold Explorer.refresh
  split
  · next hroot => exact hlast hroot
  · next rootPath hroot =>
    refine ⟨fun r hr => ?_, Or.inl (by simp)⟩
    rcases List.mem_append.mp hr with hr | hr
    · obtain ⟨hasked, hlooks⟩ := h r hr
      refine ⟨Nat.le_succ_of_le hasked, fun heq => ?_, hlooks⟩
      have : r.asked = s.requests + 1 := heq
      omega
    · rw [List.mem_singleton.mp hr]
      exact ⟨le_rfl, fun _ => hroot, by simp [Read.arrive]⟩

/-- The reads under way, one of them gone on. -/
theorem Fresh.set (h : Fresh lower byName s) (hi : s.reads[i]? = some r) {r' : Read} (hasked : r'.asked = r.asked)
    (hfits : Fits s r') : Fresh lower byName { s with reads := s.reads.set i r' } := by
  refine ⟨fun r1 hr1 => ?_, ?_⟩
  · rcases List.mem_or_eq_of_mem_set hr1 with hr1 | rfl
    · have := h.fits r1 hr1
      exact ⟨this.asked, this.root, this.looks⟩
    · exact ⟨hfits.asked, hfits.root, hfits.looks⟩
  · have hmap : (s.reads.set i r').map Read.asked = s.reads.map Read.asked := by
      obtain ⟨hlt, hget⟩ := List.getElem?_eq_some_iff.mp hi
      have hlt' : i < (s.reads.map Read.asked).length := by simpa using hlt
      have hself : r'.asked = (s.reads.map Read.asked)[i] := by simp [hasked, hget]
      rw [List.map_set, hself, List.set_getElem_self]
    rw [hmap]
    exact h.last

theorem fresh_look (h : Fresh lower byName s) (hs : s.step lower byName (.look i) = some s') :
    Fresh lower byName s' := by
  simp only [Explorer.step] at hs
  split at hs
  · next r hi =>
    simp only [Option.ite_none_right_eq_some, Option.some.injEq] at hs
    obtain ⟨hpending, rfl⟩ := hs
    have hr := h.fits r (List.mem_of_getElem? hi)
    refine h.set hi rfl ⟨hr.asked, hr.root, fun l hl => ?_⟩
    rcases List.mem_append.mp hl with hl | hl
    · exact hr.looks l (by simp [Read.arrive, hl])
    · rw [List.mem_singleton.mp hl]
      exact hr.asked
  · cases hs

/-- A read that gets an answer goes on, or it ends and is shown. -/
theorem finish_cases (s : Explorer) (i : ℕ) (r : Read) :
    ¬ Explorer.Ended (r.progress lower byName) ∧ s.finish lower byName i r = { s with reads := s.reads.set i r } ∨
      Explorer.Ended (r.progress lower byName) ∧ ∃ error, s.finish lower byName i r =
        { s with
          roots := (r.progress lower byName).nodes
          error := error
          reads := s.reads.eraseIdx i
          shown := some r } := by
  unfold Explorer.finish
  cases r.progress lower byName with
  | done roots => exact Or.inr ⟨trivial, _, rfl⟩
  | failed message => exact Or.inr ⟨trivial, _, rfl⟩
  | checking dirPath stack => exact Or.inl ⟨id, rfl⟩
  | listing dirPath stack => exact Or.inl ⟨id, rfl⟩

theorem fresh_resume (h : Fresh lower byName s) (hok : s.InTurn lower byName (.resume i))
    (hs : s.step lower byName (.resume i) = some s') : Fresh lower byName s' := by
  simp only [Explorer.step] at hs
  split at hs
  · next r hi =>
    simp only [Option.ite_none_right_eq_some, Option.some.injEq] at hs
    obtain ⟨hpending, rfl⟩ := hs
    have hr := h.fits r (List.mem_of_getElem? hi)
    have harrive : Fits s r.arrive := ⟨hr.asked, hr.root, by simpa [Read.arrive] using hr.looks⟩
    have hcases := @finish_cases lower byName s i r.arrive
    rcases hcases with ⟨-, heq⟩ | ⟨hended, error, heq⟩
    · rw [heq]
      exact h.set hi rfl harrive
    · rw [heq]
      refine ⟨fun r1 hr1 => ?_, ?_⟩
      · have := h.fits r1 (List.mem_of_mem_eraseIdx hr1)
        exact ⟨this.asked, this.root, this.looks⟩
      have hcurrent (hroot : s.rootPath = some r.root) (hlooks : ∀ l ∈ r.arrive.looks, s.requests ≤ l.requests) :
          Explorer.Current lower byName { s with
            roots := (r.arrive.progress lower byName).nodes
            error := error
            reads := s.reads.eraseIdx i
            shown := some r.arrive } :=
        fun rootPath hp => ⟨r.arrive, rfl, Option.some.inj (hroot.symm.trans hp), rfl, hlooks⟩
      by_cases hlast : r.asked = s.requests
      · -- the last read asked for ends itself
        exact Or.inr (hcurrent (hr.root hlast) fun l hl => hlast ▸ hr.looks l hl)
      · rcases hok r hi hended with hmem | ⟨hroot, hlooks⟩
        · obtain ⟨r1, hr1, hasked⟩ := List.mem_map.mp hmem
          obtain ⟨j, hj⟩ := List.mem_iff_getElem?.mp hr1
          have hne : j ≠ i := by
            rintro rfl
            obtain rfl := Option.some.inj (hj.symm.trans hi)
            exact hlast hasked
          exact Or.inl (List.mem_map.mpr ⟨r1, List.mem_eraseIdx_iff_getElem?.mpr ⟨j, hne, hj⟩, hasked⟩)
        · exact Or.inr (hcurrent hroot hlooks)
  · cases hs

/-- **One step** keeps the last read under way, or the tree current. -/
theorem fresh_step (h : Fresh lower byName s) (hok : s.InTurn lower byName a)
    (hs : s.step lower byName a = some s') : Fresh lower byName s' := by
  have hreads : ∀ r ∈ s.reads, r.asked ≤ s.requests ∧ ∀ l ∈ r.arrive.looks, r.asked ≤ l.requests :=
    fun r hr => ⟨(h.fits r hr).asked, (h.fits r hr).looks⟩
  cases a with
  | setRoot rootPath =>
    obtain rfl := Option.some.inj hs
    exact fresh_refresh hreads nofun
  | refresh =>
    obtain rfl := Option.some.inj hs
    exact fresh_refresh hreads fun _ => h
  | change disk =>
    obtain rfl := Option.some.inj hs
    exact ⟨fun r hr => ⟨(h.fits r hr).asked, (h.fits r hr).root, (h.fits r hr).looks⟩, h.last⟩
  | look i => exact fresh_look h hs
  | resume i => exact fresh_resume h hok hs

/-- **The tree is current once nothing is under way**, if no read has ended out of turn. -/
theorem current_of_inTurn {disk : Disk}
    (h : Reach (Explorer.step lower byName) (Explorer.InTurn lower byName) { disk := disk } s)
    (hreads : s.reads = []) : s.Current lower byName := by
  have hfresh : Fresh lower byName s := by
    refine h.inv ⟨by simp, Or.inr nofun⟩ ?_
    exact fun s a s' hs hok hstep => fresh_step hs hok hstep
  have hlast := hfresh.last
  rw [hreads] at hlast
  exact hlast.resolve_left List.not_mem_nil

end Runs

/-- Every directory lists one note, of its own name. -/
def oneNote : Disk where
  dirExists _ := true
  list dirPath := .ok [⟨basename dirPath ++ ".md".toList, .file⟩]

/-- A root is set, and read to the end. -/
def oneRead : List Action := [.setRoot [['a']], .look 0, .resume 0, .look 0, .resume 0]

/-- It is shown. -/
theorem current_one : ∃ s, s.roots.map FsNode.path = [[['a'], "a.md".toList]] ∧
    Explorer.Current (List.map Char.toLower) id s := by
  have hrun : ∃ s, run (Explorer.step (List.map Char.toLower) id) { disk := oneNote } oneRead = some s ∧
      s.reads = [] ∧ s.roots.map FsNode.path = [[['a'], "a.md".toList]] := ⟨_, rfl, rfl, rfl⟩
  have hturn : Along (Explorer.step (List.map Char.toLower) id) (Explorer.InTurn (List.map Char.toLower) id)
      { disk := oneNote } oneRead :=
    ⟨trivial, trivial, fun _ _ _ => Or.inl (by decide), trivial, fun _ _ _ => Or.inl (by decide), trivial⟩
  obtain ⟨s, hrun, hreads, hroots⟩ := hrun
  exact ⟨s, hroots, current_of_inTurn (.of_run hturn hrun) hreads⟩

/-- The read of the first root ends after that of the second one: its notes are shown under the second root. -/
theorem not_current : ∃ s, run (Explorer.step (List.map Char.toLower) id) { disk := oneNote }
      [.setRoot [['a']], .setRoot [['b']], .look 1, .resume 1, .look 1, .resume 1,
        .look 0, .resume 0, .look 0, .resume 0] = some s ∧
    s.reads = [] ∧ s.rootPath = some [['b']] ∧ s.roots.map FsNode.path = [[['a'], "a.md".toList]] ∧
      ¬ s.Current (List.map Char.toLower) id := by
  refine ⟨_, rfl, rfl, rfl, rfl, fun h => ?_⟩
  obtain ⟨r, hr, hroot, -⟩ := h [['b']] rfl
  obtain rfl := Option.some.inj hr
  exact absurd hroot (by decide)

end Notely.Desktop.ExplorerTree
