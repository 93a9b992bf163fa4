import Notely.Desktop.OpenPath

/-! # A rename or a move that throws

`rename` and `move` of `Desktop/FileSystem` make up to two changes, and the first is not undone when the second one
fails: a change of case leaves the source under its temporary name (`Strands`), and a move that replaces has deleted
what was at the destination (`LosesReplaced`). In every other call that throws, source and destination are as they
were (`atomic_iff`), whichever of the changes the operating system fails to make. -/

namespace Notely.Desktop.AtomicMoves

open Notely.Lib.Strings Notely.Lib.Paths Notely.Lib.FileTree Notely.Desktop.FileSystem Notely.Desktop.FileSafety
open Notely.Desktop.OpenPath (osChange_cases entityRename_cases renameEntity_direct_run twoNotes)

/-! ### What is asked for -/

/-- A call of `rename` or `move`. -/
inductive Call
  | rename (path : Path) (newName : Text)
  | move (source destDir : Path) (replace : Bool) (renameTo : Option Text)

namespace Call

/-- The entry to be renamed or moved. -/
def source : Call → Path
  | .rename path _ => path
  | .move source _ _ _ => source

/-- Where it is to go. -/
def dest (P : Platform) (t : DirTree Text) : Call → Path
  | .rename path newName => join (dirname path) (P.renameName (t.DirAt (P.key path)) newName)
  | .move source destDir _ renameTo => moveDest P t source destDir renameTo

/-- It is to delete what is at the destination. -/
def replaces : Call → Bool
  | .rename _ _ => false
  | .move _ _ replace _ => replace

def run (P : Platform) (w : World) : Call → EStateM.Result FsError World Path
  | .rename path newName => FileSystem.rename P path newName w
  | .move source destDir replace renameTo => FileSystem.move P source destDir replace renameTo w

end Call

/-- **A call that throws leaves the source and the entry at the destination as they were**, with all below them. -/
def Atomic (P : Platform) (t : DirTree Text) (source dest : Path) : EStateM.Result FsError World Path → Prop
  | .ok _ _ => True
  | .error _ w => Carried t (P.key source) w.tree (P.key source) ∧ Carried t (P.key dest) w.tree (P.key dest)

/-! ### The calls that leave something half-way -/

/-- The entry at `source` is renamed to a temporary name for a change of case, and cannot be renamed on: the operating
system fails, or another entry is at the destination and does not make way. -/
structure Strands (P : Platform) (w : World) (source dest : Path) : Prop where
  caseOnly : P.isCaseOnlyRename source dest = true
  found : (w.tree.node (P.key source)).isSome
  parent : w.tree.DirAt (P.key dest).dropLast
  first : w.faults.headD false = false
  second : w.faults.tail.headD false = true ∨
    P.key source ≠ P.key dest ∧ ¬ MakesWay P w.tree (w.tree.DirAt (P.key source)) (P.key dest)

/-- What is at the destination is deleted to make room, and the source cannot be renamed then: the operating system
fails, or refuses. -/
structure LosesReplaced (P : Platform) (w : World) (source dest : Path) (replace : Bool) : Prop where
  replace : replace = true
  collides : Collides P w.tree source dest
  filled : ∃ r, (w.tree.node (P.key dest ++ r)).isSome
  first : w.faults.headD false = false
  second : w.faults.tail.headD false = true ∨
    ¬ Renamable P (w.tree.remove (P.key dest)) (w.tree.DirAt (P.key source)) source dest

section Renames
variable {P : Platform} {w : World} {source dest : Path}

/-- A direct rename is made, or nothing happens. -/
theorem atomic_direct {isDir : Bool} :
    Atomic P w.tree source dest (renameEntity P isDir source dest false w) := by
  rw [renameEntity_direct_run]
  rcases entityRename_cases P isDir source dest w with ⟨h, -, he⟩ | ⟨-, he⟩
  · rw [he]
    trivial
  · rw [he]
    exact ⟨fun _ => rfl, fun _ => rfl⟩

/-- Renamed to a temporary name, the source is gone from its path. -/
theorem node_source_renamed (hlen : source.length = dest.length) {isDir : Bool}
    (h : Renamable P w.tree isDir source (tempPath dest (tempIndex P w.tree dest))) :
    h.tree.node (P.key source) = none := by
  have htemp : (tempPath dest (tempIndex P w.tree dest)).length = source.length :=
    (length_tempPath (ne_nil_of_kindIs hlen h.kind) _).trans hlen.symm
  rw [h.node_tree, if_neg, if_pos List.prefix_rfl]
  exact fun hp => source_ne_temp dest h.kind (hp.eq_of_length (by simpa using htemp)).symm

/-- **A change of case is atomic unless it strands the source.** -/
theorem atomic_caseOnly (hco : P.isCaseOnlyRename source dest = true) :
    Atomic P w.tree source dest (renameEntity P (w.tree.DirAt (P.key source)) source dest true w) ↔
      ¬ Strands P w source dest := by
  have hlen := P.length_of_caseOnly hco
  rw [renameEntity_caseOnly]
  rcases entityRename_cases P (w.tree.DirAt (P.key source)) source (tempPath dest (tempIndex P w.tree dest)) w with
    ⟨h1, hfirst, he1⟩ | ⟨hwhy, he1⟩
  · have hway := renamable_fromTemp hlen h1
    rw [he1]
    dsimp only
    rcases entityRename_cases P (w.tree.DirAt (P.key source)) (tempPath dest (tempIndex P w.tree dest)) dest
        ⟨h1.tree, w.faults.tail⟩ with ⟨h2, hsecond, he2⟩ | ⟨hwhy, he2⟩
    · rw [he2]
      refine iff_of_true trivial fun h => ?_
      rcases h.second with hfault | ⟨hne, hnot⟩
      · exact Bool.false_ne_true (hsecond.symm.trans hfault)
      · exact (hway.mp h2).elim hne hnot
    · rw [he2]
      have hfound : (w.tree.node (P.key source)).isSome := h1.kind.isSome
      have hsecond : w.faults.tail.headD false = true ∨
          P.key source ≠ P.key dest ∧ ¬ MakesWay P w.tree (w.tree.DirAt (P.key source)) (P.key dest) :=
        hwhy.imp (fun h => h) fun h => not_or.mp (mt hway.mpr h)
      refine iff_of_false (fun h => ?_) fun h => h ⟨hco, hfound, ((renamable_temp hlen).mp h1).2, hfirst, hsecond⟩
      have hgone := h.1 []
      rw [List.append_nil, node_source_renamed hlen h1] at hgone
      simp [← hgone] at hfound
  · rw [he1]
    refine iff_of_true ⟨fun _ => rfl, fun _ => rfl⟩ fun h => ?_
    rcases hwhy with hfault | hnot
    · exact Bool.false_ne_true (h.first.symm.trans hfault)
    · exact hnot ((renamable_temp hlen).mpr ⟨kindIs_of_isSome h.found, h.parent⟩)

/-- **A move that deletes what is at the destination is atomic unless it cannot take its place.** -/
theorem atomic_replaced (hc : Collides P w.tree source dest) :
    Atomic P w.tree source dest (match delete P dest w with
      | .ok _ w' => renameEntity P (w.tree.DirAt (P.key source)) source dest false w'
      | .error e w' => .error e w') ↔ ¬ LosesReplaced P w source dest true := by
  rw [delete_of_exists hc.2.2]
  rcases osChange_cases (fun t => some (t.remove (P.key dest))) w with ⟨t, hfirst, ht, he⟩ | ⟨hwhy, he⟩
  · obtain rfl := Option.some.inj ht
    rw [he]
    dsimp only
    rw [renameEntity_direct_run]
    rcases entityRename_cases P (w.tree.DirAt (P.key source)) source dest
        ⟨w.tree.remove (P.key dest), w.faults.tail⟩ with ⟨h, hsecond, he⟩ | ⟨hwhy, he⟩
    · rw [he]
      refine iff_of_true trivial fun hloses => ?_
      rcases hloses.second with hfault | hnot
      · exact Bool.false_ne_true (hsecond.symm.trans hfault)
      · exact hnot h
    · rw [he]
      by_cases hfilled : ∃ r, (w.tree.node (P.key dest ++ r)).isSome
      · refine iff_of_false (fun h => ?_) fun h => h ⟨rfl, hc, hfilled, hfirst, hwhy⟩
        obtain ⟨r, hr⟩ := hfilled
        have hgone := h.2 r
        rw [DirTree.node_remove, if_pos (List.prefix_append _ _)] at hgone
        simp [← hgone] at hr
      · refine iff_of_true ?_ fun h => hfilled h.filled
        have hsame : ∀ q, (w.tree.remove (P.key dest)).node q = w.tree.node q :=
          DirTree.node_remove_of_empty fun r => Option.not_isSome_iff_eq_none.mp (not_exists.mp hfilled r)
        exact ⟨fun r => hsame _, fun r => hsame _⟩
  · rw [he]
    refine iff_of_true ⟨fun _ => rfl, fun _ => rfl⟩ fun h => ?_
    rcases hwhy with hfault | hnone
    · exact Bool.false_ne_true (h.first.symm.trans hfault)
    · cases hnone

end Renames

/-! ### The calls -/

section Calls
variable {P : Platform} {w : World} {path source dest : Path} {newName : Text}

/-- A call that throws at once changes nothing. -/
theorem atomic_error (e : FsError) : Atomic P w.tree source dest (.error e w) := ⟨fun _ => rfl, fun _ => rfl⟩

/-- What `rename` rejects or leaves alone is no change of case. -/
theorem not_strands_of_rejected (hdest : (Call.rename path newName).dest P w.tree = dest)
    (h : P.renameName (w.tree.DirAt (P.key path)) newName = [] ∨ P.isCaseOnlyRename path dest = false) :
    ¬ Strands P w path dest := by
  intro hs
  have hne : path ≠ [] := by
    rintro rfl
    simpa [Platform.key] using hs.found
  have hnot : P.isCaseOnlyRename path dest = false := by
    rcases h with hempty | hnot
    · rw [← hdest, Call.dest, hempty]
      exact caseOnly_of_empty hne
    · exact hnot
  exact Bool.false_ne_true (hnot.symm.trans hs.caseOnly)

theorem not_strands_of_equals (h : P.equals dest path = true) : ¬ Strands P w path dest := by
  intro hs
  have hsame : P.equals path dest = true := by
    unfold Platform.equals at h ⊢
    simpa [eq_comm] using h
  have hcase := hs.caseOnly
  rw [Platform.isCaseOnlyRename, if_pos hsame] at hcase
  exact Bool.false_ne_true hcase

/-- What is renamed after the checks. -/
theorem atomic_renameEntity : Atomic P w.tree source dest
      (renameEntity P (w.tree.DirAt (P.key source)) source dest (P.isCaseOnlyRename source dest) w) ↔
    ¬ Strands P w source dest := by
  cases hco : P.isCaseOnlyRename source dest with
  | true => exact atomic_caseOnly hco
  | false => exact iff_of_true atomic_direct fun h => Bool.false_ne_true (hco.symm.trans h.caseOnly)

end Calls

/-- **Rename and move are atomic on failure exactly if they neither strand the source nor lose what they replace.** -/
theorem atomic_iff (P : Platform) (w : World) (c : Call) :
    Atomic P w.tree c.source (c.dest P w.tree) (c.run P w) ↔
      ¬ (Strands P w c.source (c.dest P w.tree) ∨ LosesReplaced P w c.source (c.dest P w.tree) c.replaces) := by
  cases c with
  | rename path newName =>
    generalize hdest : (Call.rename path newName).dest P w.tree = dest
    have hno : ¬ LosesReplaced P w path dest false := fun h => Bool.false_ne_true h.replace
    simp only [Call.run, Call.source, Call.replaces, or_iff_left hno]
    rcases rename_run w path newName hdest.symm with ⟨e, he, hearly⟩ | ⟨he, heq⟩ | ⟨he, -⟩
    · rw [he]
      exact iff_of_true (atomic_error e) (not_strands_of_rejected hdest hearly)
    · rw [he]
      exact iff_of_true trivial (not_strands_of_equals heq)
    · rw [he]
      exact atomic_renameEntity
  | move source destDir replace renameTo =>
    generalize hdest : (Call.move source destDir replace renameTo).dest P w.tree = dest
    simp only [Call.run, Call.source, Call.replaces]
    rw [move_run P source destDir replace renameTo w dest hdest.symm]
    split_ifs with hc hreplace
    · have hno : ¬ Strands P w source dest := fun h => Bool.false_ne_true (hc.1.symm.trans h.caseOnly)
      rw [or_iff_right hno, hreplace]
      exact atomic_replaced hc
    · refine iff_of_true (atomic_error _) ?_
      rintro (h | h)
      · exact Bool.false_ne_true (hc.1.symm.trans h.caseOnly)
      · exact hreplace h.replace
    · have hno : ¬ LosesReplaced P w source dest replace := fun h => hc h.collides
      rw [or_iff_left hno]
      exact atomic_renameEntity

/-- A note is to replace another one: this is deleted, and then the rename fails. -/
def failedMove : World := { twoNotes with faults := [false, true] }

/-- **The note that was to be replaced is gone**, and the other one is where it was. -/
theorem replaced_lost : ¬ ∀ (P : Platform) (w : World) (c : Call),
    Atomic P w.tree c.source (c.dest P w.tree) (c.run P w) := by
  intro h
  have hkept := (h posix failedMove (.move ["d".toList, "a.md".toList] [] true none)).2 []
  revert hkept
  decide

end Notely.Desktop.AtomicMoves
