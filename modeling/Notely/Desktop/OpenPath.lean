import Notely.Desktop.FileSafety
import Notely.Lib.Lts

/-! # The open file and the file tree

What the file tree does when an entry is renamed, moved or deleted: `confirmRename`, `move` and `delete` of
`features/explorer/explorer_state.dart` over the file operations, and then, where they succeed, `handlePathMoved` or
`handlePathDeleted` of `features/editor/editor_state.dart`, as `features/explorer/file_tree.dart` calls them. What a
file of the tree holds stands for the file itself: nothing here reads it or writes to it.

* `renameEntity_effect`: what `_renameEntity` leaves, whatever fails.
* `follows_step`: an operation leaves the open path with the file that was opened, if it does not delete that file to
  make room, does not put another one in its place under a name that differs in case, does not leave it half-way, and
  names it as `p.equals` does.
* `follows`: so does any sequence of such operations. -/

namespace Notely.Desktop.OpenPath

open Notely.Lib Notely.Lib.Lts Notely.Lib.Strings Notely.Lib.Paths Notely.Lib.FileTree
open Notely.Desktop.Dart Notely.Desktop.FileSystem Notely.Desktop.FileSafety

variable (P : Platform)

/-! ### The editor -/

/-- `p.isWithin`. -/
def isWithin (parent child : Path) : Bool :=
  parent.length < child.length && P.equals parent (child.take parent.length)

/-- `handlePathMoved`, on the open path. -/
def handlePathMoved (oldPath newPath open_ : Path) : Path :=
  if P.equals open_ oldPath then newPath
  else if isWithin P oldPath open_ then newPath ++ open_.drop oldPath.length
  else open_

/-- `handlePathDeleted`, on the open path. -/
def handlePathDeleted (path open_ : Path) : Option Path :=
  if P.equals open_ path || isWithin P path open_ then none else some open_

/-! ### The explorer -/

/-- `move` does nothing, or refuses, without a look at the files. -/
def refuses (source destDir : Path) (renameTo : Option Text) : Bool :=
  renameTo.isNone &&
    (P.equals (dirname source) destDir || P.equals source destDir || isWithin P source destDir)

/-- The name `move` looks for in the destination. -/
def targetName (source : Path) (renameTo : Option Text) : Text := renameTo.getD (basename source)

/-- `move` finds an entry in its way, and asks. -/
def asks (t : DirTree Text) (source destDir : Path) (replace : Bool) (renameTo : Option Text) : Bool :=
  let target := join destDir (targetName source renameTo)
  ! replace && ! P.isCaseOnlyRename source target && ! P.equals target source && decide (t.Exists (P.key target))

/-! ### The two together -/

/-- The files, the path of the open one, and the file that was opened. -/
structure Desk where
  world : World
  openPath : Option Path
  opened : Text

inductive Action
  /-- A file is opened. -/
  | open (path : Path)
  | rename (path : Path) (newName : Text)
  | move (source destDir : Path) (replace : Bool) (renameTo : Option Text)
  | delete (path : Path)

/-- An entry was moved, or the operation threw. -/
def Desk.applyMove (s : Desk) (source : Path) : EStateM.Result FsError World Path → Desk
  | .ok newPath w => { s with world := w, openPath := s.openPath.map (handlePathMoved P source newPath) }
  | .error _ w => { s with world := w }

def step (s : Desk) : Action → Option Desk
  | .open path =>
    match s.world.tree.node (P.key path) with
    | some (.file file) => some { s with openPath := some path, opened := file }
    | _ => some s
  | .rename path newName =>
    if trim newName = [] then some s
    else some (s.applyMove P path (FileSystem.rename P path newName s.world))
  | .move source destDir replace renameTo =>
    if refuses P source destDir renameTo || asks P s.world.tree source destDir replace renameTo then some s
    else some (s.applyMove P source (FileSystem.move P source destDir replace renameTo s.world))
  | .delete path =>
    match FileSystem.delete P path s.world with
    | .ok _ w => some { s with world := w, openPath := s.openPath.bind (handlePathDeleted P path) }
    | .error _ w => some { s with world := w }

/-- **The entry at the open path is the very file that was opened.** -/
def Follows (s : Desk) : Prop :=
  ∀ p, s.openPath = some p → s.world.tree.node (P.key p) = some (.file s.opened)

/-! ### What the file operations leave -/

/-- The entry at `source` is at `dest`, and nothing else of what was there. -/
def Placed (t t' : DirTree Text) (source dest : Path) : Prop :=
  ∀ q, t'.node q =
    if dest <+: q then t.node (source ++ q.drop dest.length) else if source <+: q then none else t.node q

section Effects
variable {P} {w : World} {isDir : Bool} {source dest path : Path}

/-- The operating system makes a change, or leaves all as it is. -/
theorem osChange_cases (f : DirTree Text → Option (DirTree Text)) (w : World) :
    (∃ t, w.faults.headD false = false ∧ f w.tree = some t ∧ osChange f w = .ok () ⟨t, w.faults.tail⟩) ∨
    ((w.faults.headD false = true ∨ f w.tree = none) ∧ osChange f w = .error .os ⟨w.tree, w.faults.tail⟩) := by
  unfold osChange
  cases hfault : w.faults.headD false with
  | false =>
    cases hf : f w.tree with
    | none => exact Or.inr ⟨Or.inr rfl, rfl⟩
    | some t => exact Or.inl ⟨t, rfl, rfl, rfl⟩
  | true => exact Or.inr ⟨Or.inl rfl, rfl⟩

theorem entityRename_cases (P : Platform) (isDir : Bool) (source dest : Path) (w : World) :
    (∃ h : Renamable P w.tree isDir source dest, w.faults.headD false = false ∧
      entityRename P isDir source dest w = .ok () ⟨h.tree, w.faults.tail⟩) ∨
    ((w.faults.headD false = true ∨ ¬ Renamable P w.tree isDir source dest) ∧
      entityRename P isDir source dest w = .error .os ⟨w.tree, w.faults.tail⟩) := by
  rcases osChange_cases (fun t => if h : Renamable P t isDir source dest then some h.tree else none) w with
    ⟨t, hmade, ht, he⟩ | ⟨hwhy, he⟩
  · rw [Option.dite_none_right_eq_some] at ht
    obtain ⟨h, ht⟩ := ht
    obtain rfl := Option.some.inj ht
    exact Or.inl ⟨h, hmade, he⟩
  · refine Or.inr ⟨hwhy.imp id fun hnone h => ?_, he⟩
    rw [dif_pos h] at hnone
    cases hnone

/-- A direct rename is one change. -/
theorem renameEntity_direct_run (P : Platform) (isDir : Bool) (source dest : Path) (w : World) :
    renameEntity P isDir source dest false w =
      match entityRename P isDir source dest w with
      | .ok _ w' => .ok dest w'
      | .error e w' => .error e w' := by
  simp only [renameEntity, Bool.false_eq_true, if_false, bind, EStateM.bind, pure, EStateM.pure]
  cases entityRename P isDir source dest w <;> rfl

/-- Both renames of a change of case: the source is at the destination. -/
theorem placed_viaTemp {t : DirTree Text} (hlen : source.length = dest.length)
    (h1 : Renamable P t isDir source (tempPath dest (tempIndex P t dest)))
    (h2 : Renamable P h1.tree isDir (tempPath dest (tempIndex P t dest)) dest) :
    Placed t h2.tree (P.key source) (P.key dest) := by
  have hrun : renameEntity P isDir source dest true (settled t) = .ok dest (settled h2.tree) := by
    rw [renameEntity_caseOnly, show (settled t).tree = t from rfl, entityRename_ok h1]
    simp only [entityRename_ok h2]
  rcases renameEntity_viaTemp P t isDir hlen with ⟨t', he, -, -, hnode⟩ | ⟨t', he, -⟩ | ⟨he, -⟩
  · rw [hrun] at he
    obtain ⟨-, hworld⟩ := EStateM.Result.ok.inj he
    obtain rfl : h2.tree = t' := congrArg World.tree hworld
    simpa [Placed] using hnode
  · cases hrun.symm.trans he
  · cases hrun.symm.trans he

/-- **What `_renameEntity` leaves**: all as it was, or the source at the destination; or, of a change of case, the
source under the temporary name. -/
theorem renameEntity_effect (P : Platform) (w : World) (isDir : Bool) {source dest : Path} {caseOnly : Bool}
    (hlen : caseOnly = true → source.length = dest.length) :
    (∃ e w', renameEntity P isDir source dest caseOnly w = .error e w' ∧ w'.tree = w.tree) ∨
    (∃ w', renameEntity P isDir source dest caseOnly w = .ok dest w' ∧ KindIs w.tree isDir (P.key source) ∧
      (P.key source = P.key dest ∨ MakesWay P w.tree isDir (P.key dest)) ∧
      Placed w.tree w'.tree (P.key source) (P.key dest)) ∨
    (caseOnly = true ∧ ∃ e w', renameEntity P isDir source dest caseOnly w = .error e w' ∧
      KindIs w.tree isDir (P.key source) ∧
      (w.faults.tail.headD false = true ∨
        P.key source ≠ P.key dest ∧ ¬ MakesWay P w.tree isDir (P.key dest)) ∧
      ∀ q, ¬ P.key source <+: q → (w.tree.node q).isSome → w'.tree.node q = w.tree.node q) := by
  cases caseOnly with
  | false =>
    have hrun := renameEntity_direct_run P isDir source dest w
    rcases entityRename_cases P isDir source dest w with ⟨h, -, he⟩ | ⟨-, he⟩
    · refine Or.inr (Or.inl ⟨⟨h.tree, w.faults.tail⟩, by rw [hrun, he], h.kind, h.way, fun q => ?_⟩)
      simpa using h.node_tree q
    · exact Or.inl ⟨.os, ⟨w.tree, w.faults.tail⟩, by rw [hrun, he], rfl⟩
  | true =>
    have hlen := hlen rfl
    have hrun := renameEntity_caseOnly P w isDir source dest
    rcases entityRename_cases P isDir source (tempPath dest (tempIndex P w.tree dest)) w with
      ⟨h1, -, he1⟩ | ⟨-, he1⟩
    · rcases entityRename_cases P isDir (tempPath dest (tempIndex P w.tree dest)) dest ⟨h1.tree, w.faults.tail⟩ with
        ⟨h2, -, he2⟩ | ⟨hwhy, he2⟩
      · refine Or.inr (Or.inl ⟨⟨h2.tree, w.faults.tail.tail⟩, ?_, h1.kind, ?_, placed_viaTemp hlen h1 h2⟩)
        · rw [hrun, he1]
          simp only [he2]
        · exact (renamable_fromTemp hlen h1).mp h2
      · refine Or.inr (Or.inr ⟨rfl, .os, ⟨h1.tree, w.faults.tail.tail⟩, ?_, h1.kind, ?_, fun q hq hs => ?_⟩)
        · rw [hrun, he1]
          simp only [he2]
        · refine hwhy.imp id fun hnot => ?_
          simpa [not_or] using mt (renamable_fromTemp hlen h1).mpr hnot
        · dsimp only
          rw [h1.node_tree, if_neg, if_neg hq]
          intro htemp
          simp [none_below_temp htemp] at hs
    · exact Or.inl ⟨.os, ⟨w.tree, w.faults.tail⟩, by rw [hrun, he1], rfl⟩

/-- `delete` removes what is there, or leaves all as it is. -/
theorem delete_effect (P : Platform) (path : Path) (w : World) :
    (∃ w', FileSystem.delete P path w = .ok () w' ∧
      ∀ q, w'.tree.node q = if P.key path <+: q then none else w.tree.node q) ∨
    ∃ e w', FileSystem.delete P path w = .error e w' ∧ w'.tree = w.tree := by
  have hchange : (∃ w', osChange (fun t => some (t.remove (P.key path))) w = .ok () w' ∧
        ∀ q, w'.tree.node q = if P.key path <+: q then none else w.tree.node q) ∨
      ∃ e w', osChange (fun t => some (t.remove (P.key path))) w = .error e w' ∧ w'.tree = w.tree := by
    rcases osChange_cases (fun t => some (t.remove (P.key path))) w with
      ⟨t, -, ht, he⟩ | ⟨-, he⟩
    · obtain rfl := Option.some.inj ht
      exact Or.inl ⟨_, he, fun q => DirTree.node_remove w.tree (P.key path) q⟩
    · exact Or.inr ⟨_, _, he, rfl⟩
  have hlook : fileExists P path w = .ok ((w.tree.node (P.key path)).any Node.isFile) w := rfl
  simp only [FileSystem.delete, directoryExists, bind, EStateM.bind]
  by_cases hdir : w.tree.DirAt (P.key path)
  · simpa only [hdir, decide_true, if_true] using hchange
  · by_cases hfile : (w.tree.node (P.key path)).any Node.isFile = true
    · simpa only [hdir, decide_false, Bool.false_eq_true, if_false, EStateM.bind, hlook, hfile, if_true] using hchange
    · refine Or.inl ⟨w, ?_, fun q => ?_⟩
      · simp only [hdir, decide_false, Bool.false_eq_true, if_false, EStateM.bind, hlook, hfile]
        rfl
      · split_ifs with hq
        · by_contra hne
          rcases DirTree.exists_of_prefix hq (Or.inr (Option.isSome_iff_ne_none.mpr hne)) with h0 | hs
          · exact hdir (Or.inl h0)
          · obtain ⟨n, hn⟩ := Option.isSome_iff_exists.mp hs
            cases n with
            | file file => exact hfile (by simp [hn, Node.isFile])
            | dir => exact hdir (Or.inr (by simp [hn]))
        · rfl

end Effects

/-! ### What leaves the open path with its file -/

/-- `p.equals`, or `p.isWithin`. -/
def holds (path open_ : Path) : Bool := P.equals open_ path || isWithin P path open_

/-- A rename or a move of `source` to `dest` is safe for the file at `open_`. -/
structure Safe (w : World) (open_ source dest : Path) (replace : Bool) : Prop where
  /-- The file, or a folder around it, is named as `p.equals` knows it. -/
  named : P.key source <+: P.key open_ → holds P source open_ = true
  /-- It is not deleted to make room. -/
  kept : replace = true → Collides P w.tree source dest → ¬ P.key dest <+: P.key open_
  /-- No other one takes its place by a change of case. -/
  alone : Overwrites P w.tree source dest → ¬ P.key dest <+: P.key open_
  /-- It does not stay under a temporary name. -/
  whole : P.isCaseOnlyRename source dest = true → P.key source <+: P.key open_ →
    ¬ StopsHalfway P w.tree source dest ∧ w.faults.tail.headD false = false

/-- **The operation is safe for the open file.** -/
def Harmless (s : Desk) : Action → Prop
  | .open _ => True
  | .rename path newName =>
    trim newName ≠ [] → ∀ p ∈ s.openPath,
      Safe P s.world p path ((Request.rename path newName).dest P s.world.tree) false
  | .move source destDir replace renameTo =>
    refuses P source destDir renameTo = false → asks P s.world.tree source destDir replace renameTo = false →
      ∀ p ∈ s.openPath,
        Safe P s.world p source (moveDest P s.world.tree source destDir renameTo) replace
  | .delete path => ∀ p ∈ s.openPath, P.key path <+: P.key p → holds P path p = true

instance (t : DirTree Text) (source dest : Path) : Decidable (Overwrites P t source dest) :=
  inferInstanceAs (Decidable (_ ∧ _ ∧ _ ∧ _ ∧ _))

instance (t : DirTree Text) (source dest : Path) : Decidable (StopsHalfway P t source dest) :=
  inferInstanceAs (Decidable (_ ∧ _ ∧ ¬ _))

instance (w : World) (open_ source dest : Path) (replace : Bool) : Decidable (Safe P w open_ source dest replace) :=
  decidable_of_iff ((P.key source <+: P.key open_ → holds P source open_ = true) ∧
      (replace = true → Collides P w.tree source dest → ¬ P.key dest <+: P.key open_) ∧
      (Overwrites P w.tree source dest → ¬ P.key dest <+: P.key open_) ∧
      (P.isCaseOnlyRename source dest = true → P.key source <+: P.key open_ →
        ¬ StopsHalfway P w.tree source dest ∧ w.faults.tail.headD false = false))
    ⟨fun ⟨h1, h2, h3, h4⟩ => ⟨h1, h2, h3, h4⟩, fun ⟨h1, h2, h3, h4⟩ => ⟨h1, h2, h3, h4⟩⟩

instance (s : Desk) : DecidablePred (Harmless P s)
  | .open _ => isTrue trivial
  | .rename path newName => inferInstanceAs (Decidable (_ → ∀ p ∈ s.openPath, Safe P s.world p path
      ((Request.rename path newName).dest P s.world.tree) false))
  | .move source destDir replace renameTo => inferInstanceAs (Decidable (_ → _ → ∀ p ∈ s.openPath,
      Safe P s.world p source (moveDest P s.world.tree source destDir renameTo) replace))
  | .delete path =>
    inferInstanceAs (Decidable (∀ p ∈ s.openPath, P.key path <+: P.key p → holds P path p = true))

section Follows
variable {P} {s s' : Desk} {w : World} {path source dest p : Path} {replace : Bool} {a : Action}

theorem equals_take (h : holds P path p = true) : P.equals path (p.take path.length) = true := by
  unfold holds isWithin at h
  rcases Bool.or_eq_true_iff.mp h with h | h
  · unfold Platform.equals at h ⊢
    have heq : p.map P.equalsFold = path.map P.equalsFold := of_decide_eq_true h
    have hlen : p.length = path.length := by simpa using congrArg List.length heq
    rw [← hlen, List.take_length]
    exact decide_eq_true heq.symm
  · exact (Bool.and_eq_true_iff.mp h).2

/-- What `p.equals` takes for a folder around a path, the file system does too. -/
theorem key_of_holds (h : holds P path p = true) : P.key p = P.key path ++ P.key (p.drop path.length) := by
  have hkey := P.key_of_equals (equals_take h)
  conv_lhs => rw [← List.take_append_drop path.length p]
  rw [hkey]
  simp [Platform.key]

theorem handlePathMoved_of_holds {newPath : Path} (h : holds P path p = true) :
    handlePathMoved P path newPath p = newPath ++ p.drop path.length := by
  unfold handlePathMoved
  by_cases heq : P.equals p path = true
  · have hlen : p.length = path.length := by
      unfold Platform.equals at heq
      simpa using congrArg List.length (of_decide_eq_true heq)
    rw [if_pos heq, ← hlen, List.drop_length, List.append_nil]
  · have hwithin : isWithin P path p = true := (Bool.or_eq_true_iff.mp h).resolve_left heq
    rw [if_neg heq, if_pos hwithin]

theorem handlePathMoved_of_not_holds {newPath : Path} (h : holds P path p = false) :
    handlePathMoved P path newPath p = p := by
  obtain ⟨heq, hwithin⟩ := Bool.or_eq_false_iff.mp h
  unfold handlePathMoved
  rw [if_neg (by simp [heq]), if_neg (by simp [hwithin])]

/-- On a case-sensitive file system `p.equals` and `p.isWithin` look for the path at the front, -/
theorem holds_posix {open_ : Path} : holds posix path open_ = true ↔ path <+: open_ := by
  constructor
  · intro h
    have hkey := key_of_holds h
    have hid : ∀ q : Path, posix.key q = q := fun q => List.map_id q
    rw [hid, hid, hid] at hkey
    exact ⟨_, hkey.symm⟩
  · rintro ⟨rest, rfl⟩
    cases rest with
    | nil => simp [holds, Platform.equals]
    | cons c rest => simp [holds, isWithin, Platform.equals]

/-- and `handlePathMoved` is that of the editor. -/
theorem handlePathMoved_posix (old new open_ : Path) : handlePathMoved posix old new open_ = moved old new open_ := by
  unfold moved
  split_ifs with hin
  · exact handlePathMoved_of_holds (holds_posix.mpr hin)
  · exact handlePathMoved_of_not_holds (Bool.eq_false_iff.mpr (mt holds_posix.mp hin))

/-- With no file open there is nothing to follow. -/
theorem follows_of_none (h : s.openPath = none) : Follows P s := by
  intro p hp
  rw [h] at hp
  cases hp

theorem follows_unmoved (h : Follows P s) (hnode : ∀ p, s.openPath = some p →
    w.tree.node (P.key p) = s.world.tree.node (P.key p)) : Follows P { s with world := w } := by
  intro p hp
  exact (hnode p hp).trans (h p hp)

/-- An entry placed elsewhere takes the open file along, if that lies in it. -/
theorem follows_placed {w' : World} {f : Text} (hfile : w.tree.node (P.key p) = some (.file f))
    (hplaced : Placed w.tree w'.tree (P.key source) (P.key dest))
    (hnamed : P.key source <+: P.key p → holds P source p = true)
    (hfree : P.key dest <+: P.key p → P.key dest = P.key source) :
    w'.tree.node (P.key (handlePathMoved P source dest p)) = some (.file f) := by
  by_cases hsource : P.key source <+: P.key p
  · have hholds := hnamed hsource
    have hnew : P.key (dest ++ p.drop source.length) = P.key dest ++ P.key (p.drop source.length) := by
      simp [Platform.key]
    rw [handlePathMoved_of_holds hholds, hplaced, hnew, if_pos (List.prefix_append _ _), List.drop_left,
      ← key_of_holds hholds, hfile]
  · have hno : holds P source p = false := by
      rw [Bool.eq_false_iff]
      intro hholds
      rw [key_of_holds hholds] at hsource
      exact hsource (List.prefix_append _ _)
    rw [handlePathMoved_of_not_holds hno, hplaced, if_neg, if_neg hsource, hfile]
    intro hdest
    exact hsource (hfree hdest ▸ hdest)

/-- `_renameEntity`, and then the editor. -/
theorem follows_renameEntity (replace : Bool) {isDir : Bool} (h : Follows P { s with world := w })
    (hdir : P.isCaseOnlyRename source dest = true → isDir = decide (w.tree.DirAt (P.key source)))
    (hsafe : ∀ p, s.openPath = some p → Safe P w p source dest replace)
    (hfree : P.isCaseOnlyRename source dest = false → w.tree.Exists (P.key dest) → P.key dest = P.key source) :
    Follows P (s.applyMove P source (renameEntity P isDir source dest (P.isCaseOnlyRename source dest) w)) := by
  rcases renameEntity_effect P w isDir P.length_of_caseOnly with
    ⟨e, w', he, htree⟩ | ⟨w', he, hkind, hway, hplaced⟩ | ⟨hcase, e, w', he, hkind, hwhy, hkeep⟩
  · rw [he]
    exact follows_unmoved (s := { s with world := w }) h fun p _ => by rw [htree]
  · rw [he]
    intro q hq
    obtain ⟨p, hp, rfl⟩ := Option.map_eq_some_iff.mp hq
    have hfile := h p hp
    refine follows_placed hfile hplaced (hsafe p hp).named fun hdest => ?_
    have hexists : w.tree.Exists (P.key dest) := DirTree.exists_of_prefix hdest (Or.inr (by simp [hfile]))
    cases hcase : P.isCaseOnlyRename source dest with
    | false => exact hfree hcase hexists
    | true =>
      by_contra hne
      have hsome : (w.tree.node (P.key dest)).isSome := by
        refine hexists.resolve_left fun h0 => ?_
        have hlen := P.length_of_caseOnly hcase
        have h1 : dest = [] := by simpa [Platform.key] using h0
        have h2 : source = [] := by simpa [h1] using hlen
        simpa [h2, Platform.key] using hkind.isSome
      have hway := hway.resolve_left (Ne.symm hne)
      rw [hdir hcase] at hway
      exact (hsafe p hp).alone ⟨hcase, Ne.symm hne, hkind.isSome, hsome, hway⟩ hdest
  · rw [he]
    refine follows_unmoved (s := { s with world := w }) h fun p hp => ?_
    have hfile := h p hp
    refine hkeep (P.key p) (fun hsource => ?_) (by simp [hfile])
    obtain ⟨hwhole, hfault⟩ := (hsafe p hp).whole hcase hsource
    rcases hwhy with hfaults | ⟨hne, hway⟩
    · rw [hfault] at hfaults
      cases hfaults
    · rw [hdir hcase] at hway
      exact hwhole ⟨hcase, hne, hway⟩

/-- An entry that is deleted takes no open file along, or closes it. -/
theorem follows_delete (h : Follows P s)
    (hnamed : ∀ p, s.openPath = some p → P.key path <+: P.key p → holds P path p = true)
    (hnode : ∀ q, w.tree.node q = if P.key path <+: q then none else s.world.tree.node q) :
    Follows P { s with world := w, openPath := s.openPath.bind (handlePathDeleted P path) } := by
  intro q hq
  obtain ⟨p, hp, hopen⟩ := Option.bind_eq_some_iff.mp hq
  unfold handlePathDeleted at hopen
  split_ifs at hopen with hholds
  obtain rfl := Option.some.inj hopen
  have hout : ¬ P.key path <+: P.key p := fun hin => hholds (hnamed p hp hin)
  dsimp only
  rw [hnode, if_neg hout]
  exact h p hp

/-- `move` that deletes what is in its way. -/
theorem follows_replace (h : Follows P s) (hcollides : Collides P s.world.tree source dest)
    (hsafe : ∀ p, s.openPath = some p → Safe P s.world p source dest true)
    (hnode : ∀ q, w.tree.node q = if P.key dest <+: q then none else s.world.tree.node q) {isDir : Bool} :
    Follows P (s.applyMove P source (renameEntity P isDir source dest (P.isCaseOnlyRename source dest) w)) := by
  have hcase : ¬ P.isCaseOnlyRename source dest = true := by
    rw [hcollides.1]
    exact Bool.false_ne_true
  by_cases hopen : s.openPath = none
  · refine follows_of_none ?_
    cases renameEntity P isDir source dest (P.isCaseOnlyRename source dest) w with
    | ok newPath w' => simp [Desk.applyMove, hopen]
    | error e w' => exact hopen
  · obtain ⟨p0, hp0⟩ := Option.ne_none_iff_exists'.mp hopen
    have hout : ∀ p, s.openPath = some p → ¬ P.key dest <+: P.key p :=
      fun p hp => (hsafe p hp).kept rfl hcollides
    refine follows_renameEntity false (follows_unmoved h fun p hp => ?_) (fun h => absurd h hcase)
      (fun p hp => ?_) fun _ hexists => ?_
    · rw [hnode, if_neg (hout p hp)]
    · exact ⟨(hsafe p hp).named, fun hno => (by cases hno), fun hover => absurd hover.1 hcase,
        fun h => absurd h hcase⟩
    · rcases hexists with h0 | hsome
      · exact absurd (h0 ▸ List.nil_prefix) (hout p0 hp0)
      · rw [hnode, if_pos List.prefix_rfl] at hsome
        cases hsome

theorem follows_rename {newName : Text} (h : Follows P s) (hsafe : ∀ p, s.openPath = some p →
      Safe P s.world p path ((Request.rename path newName).dest P s.world.tree) false) :
    Follows P (s.applyMove P path (FileSystem.rename P path newName s.world)) := by
  rcases rename_run s.world path newName rfl with ⟨e, he, -⟩ | ⟨he, -⟩ | ⟨he, hfree⟩
  · rw [he]
    exact h
  · -- nothing is renamed, and the editor is told of the path it has
    rw [he]
    intro q hq
    obtain ⟨p, hp, rfl⟩ := Option.map_eq_some_iff.mp hq
    refine follows_placed (h p hp) (fun q => ?_) (hsafe p hp).named fun _ => rfl
    split_ifs with hin
    · obtain ⟨rest, rfl⟩ := hin
      rw [List.drop_left]
      rfl
    · rfl
  · rw [he]
    exact follows_renameEntity _ h (fun _ => rfl) hsafe fun hcase hexists => absurd hexists (hfree hcase)

theorem follows_move {destDir : Path} {renameTo : Option Text} (h : Follows P s)
    (hsafe : ∀ p, s.openPath = some p →
      Safe P s.world p source (moveDest P s.world.tree source destDir renameTo) replace) :
    Follows P (s.applyMove P source (FileSystem.move P source destDir replace renameTo s.world)) := by
  rw [move_run P source destDir replace renameTo s.world _ rfl]
  split_ifs with hcollides hreplace
  · subst hreplace
    rcases delete_effect P (moveDest P s.world.tree source destDir renameTo) s.world with
      ⟨w, he, hnode⟩ | ⟨e, w, he, htree⟩
    · rw [he]
      dsimp only
      rw [← hcollides.1]
      exact follows_replace h hcollides hsafe hnode
    · rw [he]
      exact follows_unmoved h fun p _ => by rw [htree]
  · exact h
  · refine follows_renameEntity _ h (fun _ => rfl) hsafe fun hcase hexists => ?_
    by_contra hne
    refine hcollides ⟨hcase, ?_, hexists⟩
    rw [Bool.eq_false_iff]
    exact fun heq => hne (P.key_of_equals heq)

/-- **A harmless operation leaves the open path with the file that was opened.** -/
theorem follows_step (h : Follows P s) (hok : Harmless P s a) (hs : step P s a = some s') : Follows P s' := by
  cases a with
  | «open» path =>
    simp only [step] at hs
    split at hs
    · next file hfile =>
      obtain rfl := Option.some.inj hs
      intro p hp
      obtain rfl := Option.some.inj hp
      exact hfile
    · obtain rfl := Option.some.inj hs
      exact h
  | rename path newName =>
    simp only [step] at hs
    split_ifs at hs with hname
    · obtain rfl := Option.some.inj hs
      exact h
    · obtain rfl := Option.some.inj hs
      exact follows_rename h (hok hname)
  | move source destDir replace renameTo =>
    simp only [step] at hs
    split_ifs at hs with hgo
    · obtain rfl := Option.some.inj hs
      exact h
    · obtain rfl := Option.some.inj hs
      obtain ⟨hrefuses, hasks⟩ := by simpa only [Bool.or_eq_true, not_or, Bool.not_eq_true] using hgo
      exact follows_move h (hok hrefuses hasks)
  | delete path =>
    simp only [step] at hs
    rcases delete_effect P path s.world with ⟨w, he, hnode⟩ | ⟨e, w, he, htree⟩
    · rw [he] at hs
      obtain rfl := Option.some.inj hs
      exact follows_delete h hok hnode
    · rw [he] at hs
      obtain rfl := Option.some.inj hs
      exact follows_unmoved h fun p _ => by rw [htree]

end Follows

/-- A note, and another of its name in a folder. -/
def twoNotes : World := settled (DirTree.ofEntries
  [(["a.md".toList], ⟨"a.md".toList, .file ['1']⟩), (["d".toList], ⟨"d".toList, .dir⟩),
    (["d".toList, "a.md".toList], ⟨"a.md".toList, .file ['2']⟩)] (by decide))

/-- A note is moved onto the other. -/
def moveOut : Action := .move ["d".toList, "a.md".toList] [] true none

end Notely.Desktop.OpenPath
