import Notely.Desktop.Creation

/-! # What the explorer points at

The selected path, the folder for new items and the expanded folders of `features/explorer/explorer_state.dart`, over
its operations: `createFile`, `createFolder`, `confirmRename`, `renameForTitle`, `move` and `delete`. Only the selection
is renamed with an entry; the expanded folders are not, nor is the folder for new items, which `delete` does not look
at either.

* `kept_iff`: when one operation keeps the pointers in the tree.
* `pointers_iff`: when those of a run do. -/

namespace Notely.Desktop.ExplorerPointers

open Notely.Lib.Strings Notely.Lib.Paths Notely.Lib.FileTree Notely.Lib.Lts Notely.Desktop.Dart
open Notely.Desktop.FileSystem (Platform World FsError)
open Notely.Desktop.FileSafety (settled Request moveDest Collides move_run)
open Notely.Desktop.OpenPath (isWithin holds asks targetName Placed)
open Notely.Desktop.Creation (Made)

variable (P : Platform)

/-! ### The explorer -/

/-- `ExplorerController` at its root, with the files. -/
structure Explorer where
  world : World
  rootPath : Path
  expanded : List Path := []
  selectedPath : Option Path := none
  targetDir : Path
  /-- What was thrown last; the code keeps its message. -/
  error : Option FsError := none

/-- `setRoot`. -/
def setRoot (w : World) (rootPath : Path) : Explorer := { world := w, rootPath := rootPath, targetDir := rootPath }

/-- A path as one string. -/
def text (p : Path) : Text := p.flatMap ('/' :: ·)

/-- The folders that `_expandAncestors` goes through. -/
def ancestors (rootPath path : Path) : List Path :=
  (dirname path).inits.reverse.takeWhile fun dir =>
    (text rootPath).length ≤ (text dir).length && (text rootPath).isPrefixOf (text dir)

/-- `_remap`. -/
def remap (path source dest : Path) : Path :=
  if P.equals path source then dest else dest ++ path.drop source.length

/-- What `move` tells. -/
inductive MoveResult
  | moved (oldPath newPath : Path)
  | noop
  | invalid (message : Text)
  | collision (conflictTarget : Path)
  | error (e : FsError)

namespace Explorer

variable (s : Explorer)

/-- `_expandAncestors`. -/
def expandAncestors (path : Path) : Explorer := { s with expanded := ancestors s.rootPath path ∪ s.expanded }

/-- What was thrown is kept. -/
def failed (e : FsError) (w : World) : Explorer := { s with world := w, error := some e }

/-- `createFile`. -/
def createFile (rawName : Text) (dirPath : Option Path) : Explorer × Option Path :=
  match Creation.createFile P (dirPath.getD s.targetDir) rawName s.world with
  | .ok path w =>
    ({ { s with world := w }.expandAncestors path with selectedPath := some path, error := none }, some path)
  | .error e w => (s.failed e w, none)

/-- `createFolder`. -/
def createFolder (rawName : Text) (dirPath : Option Path) : Explorer × Option Path :=
  match Creation.createFolder P (dirPath.getD s.targetDir) rawName s.world with
  | .ok path w =>
    let opened := { s with world := w }.expandAncestors path
    ({ opened with expanded := opened.expanded.insert path, targetDir := path, error := none }, some path)
  | .error e w => (s.failed e w, none)

/-- An entry was renamed or moved. -/
def afterMove (source newPath : Path) (w : World) : Explorer :=
  { { s with world := w }.expandAncestors newPath with
    selectedPath := s.selectedPath.map fun p => if holds P source p then remap P p source newPath else p
    error := none }

/-- `confirmRename`, of the path that is being renamed. -/
def confirmRename (path : Path) (newName : Text) : Explorer × Option (Path × Path) :=
  if trim newName = [] then (s, none)
  else
    match FileSystem.rename P path newName s.world with
    | .ok newPath w => (s.afterMove P path newPath w, some (path, newPath))
    | .error e w => (s.failed e w, none)

/-- `renameForTitle`. -/
def renameForTitle (path : Path) (title : Text) : Explorer × Option (Path × Path) :=
  match FileSystem.rename P path title s.world with
  | .ok newPath w =>
    if P.equals newPath path then ({ s with world := w }, none)
    else (s.afterMove P path newPath w, some (path, newPath))
  | .error e w => (s.failed e w, none)

/-- `move`. -/
def move (source destDir : Path) (replace : Bool) (renameTo : Option Text) : Explorer × MoveResult :=
  if renameTo.isNone && P.equals (dirname source) destDir then (s, .noop)
  else if renameTo.isNone && (P.equals source destDir || isWithin P source destDir) then
    (s, .invalid "Can’t move a folder into itself or its own subfolder.".toList)
  else if asks P s.world.tree source destDir replace renameTo then
    (s, .collision (join destDir (targetName source renameTo)))
  else
    match FileSystem.move P source destDir replace renameTo s.world with
    | .ok newPath w => ({ s.afterMove P source newPath w with targetDir := destDir }, .moved source newPath)
    | .error e w => (s.failed e w, .error e)

/-- `delete`. -/
def delete (path : Path) : Explorer × Bool :=
  match FileSystem.delete P path s.world with
  | .ok _ w =>
    ({ s with
      world := w
      selectedPath := s.selectedPath.filter fun p => ! holds P path p
      expanded := s.expanded.filter fun p => ! holds P path p
      error := none }, true)
  | .error e w => (s.failed e w, false)

end Explorer

/-! ### Successful operations -/

inductive Action
  | createFile (rawName : Text) (dirPath : Option Path)
  | createFolder (rawName : Text) (dirPath : Option Path)
  | rename (path : Path) (newName : Text)
  | renameForTitle (path : Path) (title : Text)
  | move (source destDir : Path) (replace : Bool) (renameTo : Option Text)
  | delete (path : Path)

/-- The old and the new path that an operation tells. -/
def renames (s : Explorer) : Action → Option (Path × Path)
  | .rename path newName => (s.confirmRename P path newName).2
  | .renameForTitle path title => (s.renameForTitle P path title).2
  | .move source destDir replace renameTo =>
    match (s.move P source destDir replace renameTo).2 with
    | .moved oldPath newPath => some (oldPath, newPath)
    | _ => none
  | _ => none

/-- **The explorer after an operation that succeeds.** -/
def step (s : Explorer) : Action → Option Explorer
  | .createFile rawName dirPath =>
    let (s', path) := s.createFile P rawName dirPath
    path.map fun _ => s'
  | .createFolder rawName dirPath =>
    let (s', path) := s.createFolder P rawName dirPath
    path.map fun _ => s'
  | .rename path newName =>
    let (s', paths) := s.confirmRename P path newName
    paths.map fun _ => s'
  | .renameForTitle path title =>
    let (s', paths) := s.renameForTitle P path title
    paths.map fun _ => s'
  | .move source destDir replace renameTo =>
    match s.move P source destDir replace renameTo with
    | (s', .moved _ _) => some s'
    | _ => none
  | .delete path =>
    match s.delete P path with
    | (s', true) => some s'
    | _ => none

/-! ### What is asked -/

/-- A path in the tree: that of the root or of an entry below it. -/
def InTree (s : Explorer) (p : Path) : Prop := P.key s.rootPath <+: P.key p ∧ s.world.tree.Exists (P.key p)

/-- **What the explorer points at is in the tree.** -/
structure Valid (s : Explorer) : Prop where
  selected : ∀ p, s.selectedPath = some p → InTree P s p
  target : InTree P s s.targetDir
  expanded : ∀ p ∈ s.expanded, InTree P s p

/-- **An operation keeps the pointers**: they are in the tree afterwards, and a folder that was expanded still is, under
its new path if it has one. -/
structure Kept (s : Explorer) (a : Action) (s' : Explorer) : Prop where
  valid : Valid P s'
  renamed : ∀ source dest, renames P s a = some (source, dest) →
    ∀ p ∈ s.expanded, holds P source p = true → remap P p source dest ∈ s'.expanded

/-- What the operation would do to the pointers is right. -/
def Upheld (s : Explorer) (a : Action) : Prop := ∀ s', step P s a = some s' → Kept P s a s'

/-! ### The operations that keep the pointers -/

/-- What is at `p` once `source` is at `dest` has been there before: it is in what moves, or is neither moved nor
replaced. -/
def Remains (t : DirTree Text) (source dest p : Path) : Prop :=
  P.key dest <+: P.key p ∧ t.Exists (P.key source ++ (P.key p).drop dest.length) ∨
    ¬ P.key dest <+: P.key p ∧ ¬ P.key source <+: P.key p ∧ t.Exists (P.key p)

/-- It is in the root, too. -/
def Stays (s : Explorer) (source dest p : Path) : Prop :=
  P.key s.rootPath <+: P.key p ∧ Remains P s.world.tree source dest p

/-- What is renamed or moved, and what it replaces, takes no pointer with it but the selection. -/
structure Spares (s : Explorer) (source dest targetDir : Path) : Prop where
  expanded : ∀ p ∈ s.expanded, Stays P s source dest p ∧ (holds P source p = true → remap P p source dest ∈ s.expanded)
  selected : ∀ p ∈ s.selectedPath,
    if holds P source p then P.key s.rootPath <+: P.key (remap P p source dest) else Stays P s source dest p
  target : Stays P s source dest targetDir
  opened : ∀ p ∈ ancestors s.rootPath dest, Stays P s source dest p

/-- What is created, and the folders opened on the way to it, are in the root. -/
def CreatesInside (s : Explorer) (path : Path) : Prop :=
  P.key s.rootPath <+: P.key path ∧ ∀ p ∈ ancestors s.rootPath path, P.key s.rootPath <+: P.key p

/-- The path `rename` gives an entry. -/
def renamed (t : DirTree Text) (path : Path) (newName : Text) : Path :=
  let dest := (Request.rename path newName).dest P t
  if P.equals dest path then path else dest

/-- **The operation takes no pointer with it that it does not move or clear.** -/
def Harmless (s : Explorer) : Action → Prop
  | .createFile rawName dirPath => CreatesInside P s (join (dirPath.getD s.targetDir) (P.ensureMarkdown rawName))
  | .createFolder rawName dirPath => CreatesInside P s (join (dirPath.getD s.targetDir) (trim rawName))
  | .rename path newName => Spares P s path (renamed P s.world.tree path newName) s.targetDir
  | .renameForTitle path title => Spares P s path (renamed P s.world.tree path title) s.targetDir
  | .move source destDir _ renameTo => Spares P s source (moveDest P s.world.tree source destDir renameTo) destDir
  | .delete path =>
    (∀ p ∈ s.selectedPath, P.key path <+: P.key p → holds P path p = true) ∧
      (P.key path <+: P.key s.targetDir → s.targetDir = []) ∧
        ∀ p ∈ s.expanded, P.key path <+: P.key p → holds P path p = true

/-! ### What the file operations do to the paths -/

section Files
variable {P} {w w' : World} {t t' : DirTree Text} {path newPath source dest destDir p : Path} {newName : Text}

/-- Nothing is moved, or something that is not the root, to somewhere that is not the root. -/
def Proper (source dest : Path) : Prop := source = dest ∨ source ≠ [] ∧ dest ≠ []

/-- An entry that was there is at its new path. -/
theorem proper_of_placed (hsome : (t.node (P.key source)).isSome)
    (h : Placed t t' (P.key source) (P.key dest)) : Proper source dest := by
  refine Or.inr ⟨?_, ?_⟩
  · rintro rfl
    simp [Platform.key] at hsome
  · rintro rfl
    have hroot := h []
    rw [if_pos (by simp [Platform.key])] at hroot
    simp only [DirTree.node_root, List.drop_nil, List.append_nil] at hroot
    simp [← hroot] at hsome

theorem placed_refl (t : DirTree Text) (p : Path) : Placed t t p p := by
  intro q
  split_ifs with hin
  · obtain ⟨rest, rfl⟩ := hin
    rw [List.drop_left]
  · rfl

/-- What is at a path after a move was there, or in what is moved. -/
theorem exists_placed (h : Placed t t' (P.key source) (P.key dest)) (hproper : Proper source dest) :
    t'.Exists (P.key p) ↔ Remains P t source dest p := by
  have hdrop : (P.key p).drop dest.length = (P.key p).drop (P.key dest).length := by rw [P.length_key]
  unfold Remains
  rw [hdrop]
  by_cases hdest : P.key dest <+: P.key p
  · obtain ⟨rest, hrest⟩ := hdest
    have hnode : t'.node (P.key p) = t.node (P.key source ++ rest) := by
      rw [h, ← hrest, if_pos (List.prefix_append _ _), List.drop_left]
    have hnil : P.key p = [] ↔ P.key source ++ rest = [] := by
      rw [← hrest, List.append_eq_nil_iff, List.append_eq_nil_iff]
      rcases hproper with rfl | ⟨hs, hd⟩
      · exact Iff.rfl
      · simp [Platform.key, hs, hd]
    have hin : P.key dest <+: P.key p := ⟨rest, hrest⟩
    have hsame : t'.Exists (P.key p) ↔ t.Exists (P.key source ++ rest) := by
      unfold DirTree.Exists
      rw [hnode, hnil]
    rw [hsame, ← hrest, List.drop_left]
    simp
  · have hroot : P.key p = [] → ¬ P.key source <+: P.key p := by
      intro hp hs
      rw [hp] at hs hdest
      have hs : source = [] := by simpa [Platform.key] using List.prefix_nil.mp hs
      rcases hproper with rfl | ⟨hne, -⟩
      · exact hdest (by simp [Platform.key, hs])
      · exact hne hs
    have hnode := h (P.key p)
    rw [if_neg hdest] at hnode
    unfold DirTree.Exists
    rw [hnode]
    split_ifs with hs
    · have hne : P.key p ≠ [] := fun hp => hroot hp hs
      simp [hdest, hs, hne]
    · simp [hdest, hs]

/-- **`rename` puts the entry at its new path.** -/
theorem rename_placed (h : FileSystem.rename P path newName w = .ok newPath w') :
    newPath = renamed P w.tree path newName ∧ Placed w.tree w'.tree (P.key path) (P.key newPath) ∧
      Proper path newPath := by
  unfold renamed
  generalize hdest : (Request.rename path newName).dest P w.tree = dest
  rcases FileSafety.rename_checks w path newName hdest.symm with ⟨e, he, -⟩ | ⟨he, heq⟩ | ⟨he, -, heq, -⟩
  · cases he.symm.trans h
  · obtain ⟨rfl, rfl⟩ := EStateM.Result.ok.inj (he.symm.trans h)
    exact ⟨(if_pos heq).symm, placed_refl _ _, Or.inl rfl⟩
  · rw [he] at h
    have hdiffers : ¬ P.equals dest path = true := Bool.eq_false_iff.mp heq
    rcases OpenPath.renameEntity_effect P w (w.tree.DirAt (P.key path)) P.length_of_caseOnly with
      ⟨e, w1, he, -⟩ | ⟨w1, he, hkind, -, hplaced⟩ | ⟨-, e, w1, he, -⟩
    · cases he.symm.trans h
    · obtain ⟨rfl, rfl⟩ := EStateM.Result.ok.inj (he.symm.trans h)
      exact ⟨(if_neg hdiffers).symm, hplaced, proper_of_placed hkind.isSome hplaced⟩
    · cases he.symm.trans h

/-- What was at the destination is deleted first. -/
theorem placed_replaced {w1 : World} {isDir : Bool}
    (hdeleted : ∀ q, w1.tree.node q = if P.key dest <+: q then none else w.tree.node q)
    (h : FileSystem.renameEntity P isDir source dest false w1 = .ok newPath w') :
    newPath = dest ∧ Placed w.tree w'.tree (P.key source) (P.key dest) ∧ Proper source dest := by
  rw [OpenPath.renameEntity_direct_run] at h
  rcases OpenPath.entityRename_cases P isDir source dest w1 with ⟨hr, -, he⟩ | ⟨-, he⟩
  · rw [he] at h
    obtain ⟨rfl, rfl⟩ := EStateM.Result.ok.inj h
    have hsource : ¬ P.key dest <+: P.key source := by
      intro hin
      have hsome := hr.kind.isSome
      rw [hdeleted, if_pos hin] at hsome
      cases hsome
    have hbelow : ∀ r, ¬ P.key dest <+: P.key source ++ r := by
      intro r hin
      rcases List.prefix_or_prefix_of_prefix hin (List.prefix_append _ r) with h | h
      · exact hsource h
      · exact hsource (hr.notInside h ▸ List.prefix_rfl)
    have hplaced : Placed w.tree hr.tree (P.key source) (P.key dest) := by
      intro q
      rw [hr.node_tree, P.length_key]
      split_ifs with h1 h2
      · rw [hdeleted, if_neg (hbelow _)]
      · rfl
      · rw [hdeleted, if_neg h1]
    have hsome := hr.kind.isSome
    rw [hdeleted, if_neg hsource] at hsome
    exact ⟨rfl, hplaced, proper_of_placed hsome hplaced⟩
  · rw [he] at h
    cases h

/-- **`move` puts the entry at its new path**, deleting what is there or not. -/
theorem move_placed {replace : Bool} {renameTo : Option Text}
    (h : FileSystem.move P source destDir replace renameTo w = .ok newPath w') :
    newPath = moveDest P w.tree source destDir renameTo ∧ Placed w.tree w'.tree (P.key source) (P.key newPath) ∧
      Proper source newPath := by
  generalize hdest : moveDest P w.tree source destDir renameTo = dest
  rw [move_run P source destDir replace renameTo w dest hdest.symm] at h
  split_ifs at h with hc hreplace
  · rcases OpenPath.delete_effect P dest w with ⟨w1, he, hdeleted⟩ | ⟨e, w1, he, -⟩
    · rw [he] at h
      obtain ⟨rfl, hplaced, hproper⟩ := placed_replaced hdeleted h
      exact ⟨rfl, hplaced, hproper⟩
    · rw [he] at h
      cases h
  · rcases OpenPath.renameEntity_effect P w (w.tree.DirAt (P.key source)) P.length_of_caseOnly with
      ⟨e, w1, he, -⟩ | ⟨w1, he, hkind, -, hplaced⟩ | ⟨-, e, w1, he, -⟩
    · cases he.symm.trans h
    · obtain ⟨rfl, rfl⟩ := EStateM.Result.ok.inj (he.symm.trans h)
      exact ⟨rfl, hplaced, proper_of_placed hkind.isSome hplaced⟩
    · cases he.symm.trans h

end Files

/-! ### What the operations do to the pointers -/

section Pointers
variable {P} {s s' : Explorer} {w : World} {a : Action} {path source dest target p rootPath : Path}

theorem prefix_of_mem_ancestors (h : p ∈ ancestors rootPath path) : p <+: dirname path := by
  have hmem := (List.takeWhile_prefix _).subset h
  rw [List.mem_reverse, List.mem_inits] at hmem
  exact hmem

/-- The folders opened on the way to an entry exist. -/
theorem inTree_opened (s : Explorer) (hroot : s.rootPath = rootPath) (hex : s.world.tree.Exists (P.key path)) :
    (∀ p ∈ ancestors rootPath path, InTree P s p) ↔ ∀ p ∈ ancestors rootPath path, P.key rootPath <+: P.key p := by
  refine forall₂_congr fun p hp => ?_
  have hprefix : P.key p <+: P.key path :=
    ((prefix_of_mem_ancestors hp).trans (List.dropLast_prefix path)).map P.fold
  unfold InTree
  rw [hroot]
  exact ⟨fun h => h.1, fun h => ⟨h, DirTree.exists_of_prefix hprefix hex⟩⟩

/-- What was in the tree still is, once something is created. -/
theorem InTree.made (h : InTree P s p) (hmade : Made P s.world.tree s'.world.tree path)
    (hroot : s'.rootPath = s.rootPath) : InTree P s' p := ⟨hroot ▸ h.1, hmade.kept _ h.2⟩

theorem kept_createFile (h : Valid P s) {rawName : Text} {dirPath : Option Path}
    (hs : step P s (.createFile rawName dirPath) = some s') :
    Kept P s (.createFile rawName dirPath) s' ↔ Harmless P s (.createFile rawName dirPath) := by
  simp only [step, Explorer.createFile] at hs
  cases hcreate : Creation.createFile P (dirPath.getD s.targetDir) rawName s.world with
  | error e w =>
    rw [hcreate] at hs
    cases hs
  | ok path w =>
    rw [hcreate] at hs
    obtain rfl := Option.some.inj hs
    obtain ⟨rfl, hmade⟩ := Creation.createFile_made hcreate
    have hopened := inTree_opened (P := P) { s with world := w } rfl hmade.there
    constructor
    · intro hkept
      refine ⟨(hkept.valid.selected _ rfl).1, hopened.mp fun p hp => ?_⟩
      exact hkept.valid.expanded p (List.mem_union_iff.mpr (Or.inl hp))
    · rintro ⟨hinside, hopens⟩
      refine ⟨⟨fun p hp => ?_, h.target.made hmade rfl, fun p hp => ?_⟩, fun _ _ hr => by cases hr⟩
      · obtain rfl := Option.some.inj hp
        exact ⟨hinside, hmade.there⟩
      · rcases List.mem_union_iff.mp hp with hp | hp
        · exact hopened.mpr hopens p hp
        · exact (h.expanded p hp).made hmade rfl

theorem kept_createFolder (h : Valid P s) {rawName : Text} {dirPath : Option Path}
    (hs : step P s (.createFolder rawName dirPath) = some s') :
    Kept P s (.createFolder rawName dirPath) s' ↔ Harmless P s (.createFolder rawName dirPath) := by
  simp only [step, Explorer.createFolder] at hs
  cases hcreate : Creation.createFolder P (dirPath.getD s.targetDir) rawName s.world with
  | error e w =>
    rw [hcreate] at hs
    cases hs
  | ok path w =>
    rw [hcreate] at hs
    obtain rfl := Option.some.inj hs
    obtain ⟨rfl, hmade⟩ := Creation.createFolder_made hcreate
    have hopened := inTree_opened (P := P) { s with world := w } rfl hmade.there
    constructor
    · intro hkept
      refine ⟨hkept.valid.target.1, hopened.mp fun p hp => ?_⟩
      exact hkept.valid.expanded p (List.mem_insert_of_mem (List.mem_union_iff.mpr (Or.inl hp)))
    · rintro ⟨hinside, hopens⟩
      refine ⟨⟨fun p hp => ?_, ⟨hinside, hmade.there⟩, fun p hp => ?_⟩, fun _ _ hr => by cases hr⟩
      · exact (h.selected p hp).made hmade rfl
      · rcases List.mem_insert_iff.mp hp with rfl | hp
        · exact ⟨hinside, hmade.there⟩
        · rcases List.mem_union_iff.mp hp with hp | hp
          · exact hopened.mpr hopens p hp
          · exact (h.expanded p hp).made hmade rfl

theorem remap_eq (p source dest : Path) : remap P p source dest = dest ++ p.drop source.length := by
  unfold remap
  split_ifs with heq
  · have hlen : p.length = source.length := by
      unfold Platform.equals at heq
      simpa using congrArg List.length (of_decide_eq_true heq)
    rw [← hlen, List.drop_length, List.append_nil]
  · rfl

/-- The selection goes with what is moved. -/
theorem exists_remap (hplaced : Placed s.world.tree w.tree (P.key source) (P.key dest)) (hproper : Proper source dest)
    (hp : s.world.tree.Exists (P.key p)) (hholds : holds P source p = true) :
    w.tree.Exists (P.key (remap P p source dest)) := by
  have hkey : P.key (remap P p source dest) = P.key dest ++ P.key (p.drop source.length) := by
    simp [remap_eq, Platform.key]
  rw [exists_placed hplaced hproper, Remains, hkey]
  refine Or.inl ⟨List.prefix_append _ _, ?_⟩
  rw [← P.length_key (p := dest), List.drop_left, ← OpenPath.key_of_holds hholds]
  exact hp

/-- The folders opened on the way to a path are above it; it is not among them, nor is anything below it. -/
theorem remap_of_opened (hproper : Proper source dest) (h : remap P p source dest ∈ ancestors rootPath dest) :
    remap P p source dest = p := by
  rw [remap_eq] at h ⊢
  have hprefix := prefix_of_mem_ancestors h
  have hlen := hprefix.length_le
  rw [dirname, List.length_append, List.length_dropLast] at hlen
  have hdest : dest = [] := List.eq_nil_of_length_eq_zero (by omega)
  have hsource : source = [] := by
    rcases hproper with heq | ⟨-, hne⟩
    · rw [heq, hdest]
    · exact absurd hdest hne
  rw [hdest, hsource]
  rfl

/-- **A rename or a move keeps the pointers exactly if it spares them.** -/
theorem kept_afterMove (h : Valid P s) (hplaced : Placed s.world.tree w.tree (P.key source) (P.key dest))
    (hproper : Proper source dest) (targetDir : Path) :
    (Valid P { s.afterMove P source dest w with targetDir := targetDir } ∧
      ∀ p ∈ s.expanded, holds P source p = true → remap P p source dest ∈ ancestors s.rootPath dest ∪ s.expanded) ↔
    Spares P s source dest targetDir := by
  have hstays : ∀ p, InTree P { s with world := w } p ↔ Stays P s source dest p :=
    fun p => and_congr_right fun _ => exists_placed hplaced hproper
  constructor
  · rintro ⟨hvalid, hrenamed⟩
    refine ⟨fun p hp => ⟨?_, fun hholds => ?_⟩, fun p hp => ?_, ?_, fun p hp => ?_⟩
    · exact (hstays p).mp (hvalid.expanded p (List.mem_union_iff.mpr (Or.inr hp)))
    · rcases List.mem_union_iff.mp (hrenamed p hp hholds) with hmem | hmem
      · rw [remap_of_opened hproper hmem]
        exact hp
      · exact hmem
    · have hselected := hvalid.selected _ (congrArg (Option.map _) hp)
      split_ifs with hholds
      · simp only [if_pos hholds] at hselected
        exact hselected.1
      · simp only [if_neg hholds] at hselected
        exact (hstays p).mp hselected
    · exact (hstays targetDir).mp hvalid.target
    · exact (hstays p).mp (hvalid.expanded p (List.mem_union_iff.mpr (Or.inl hp)))
  · intro hspares
    refine ⟨⟨fun p hp => ?_, ?_, fun p hp => ?_⟩, fun p hp hholds => ?_⟩
    · obtain ⟨p, hselected, rfl⟩ := Option.map_eq_some_iff.mp hp
      have hnew := hspares.selected p hselected
      split_ifs at hnew ⊢ with hholds
      · exact ⟨hnew, exists_remap hplaced hproper (h.selected p hselected).2 hholds⟩
      · exact (hstays p).mpr hnew
    · exact (hstays targetDir).mpr hspares.target
    · rcases List.mem_union_iff.mp hp with hp | hp
      · exact (hstays p).mpr (hspares.opened p hp)
      · exact (hstays p).mpr (hspares.expanded p hp).1
    · exact List.mem_union_iff.mpr (Or.inr ((hspares.expanded p hp).2 hholds))

theorem kept_of_renames (h : Valid P s) (hplaced : Placed s.world.tree w.tree (P.key source) (P.key dest))
    (hproper : Proper source dest) (htold : renames P s a = some (source, dest)) (targetDir : Path) :
    Kept P s a { s.afterMove P source dest w with targetDir := targetDir } ↔ Spares P s source dest targetDir := by
  rw [← kept_afterMove h hplaced hproper targetDir]
  constructor
  · exact fun hkept => ⟨hkept.valid, hkept.renamed _ _ htold⟩
  · rintro ⟨hvalid, hrenamed⟩
    refine ⟨hvalid, fun source' dest' htold' => ?_⟩
    obtain ⟨rfl, rfl⟩ := Prod.mk.inj (Option.some.inj (htold.symm.trans htold'))
    exact hrenamed

theorem kept_rename (h : Valid P s) {newName : Text} (hs : step P s (.rename path newName) = some s') :
    Kept P s (.rename path newName) s' ↔ Harmless P s (.rename path newName) := by
  simp only [step, Explorer.confirmRename] at hs
  split_ifs at hs with hname
  · cases hs
  cases hrename : FileSystem.rename P path newName s.world with
  | error e w =>
    rw [hrename] at hs
    cases hs
  | ok newPath w =>
    rw [hrename] at hs
    obtain rfl := Option.some.inj hs
    obtain ⟨rfl, hplaced, hproper⟩ := rename_placed hrename
    have htold : renames P s (.rename path newName) = some (path, renamed P s.world.tree path newName) := by
      simp only [renames, Explorer.confirmRename, if_neg hname, hrename]
    exact kept_of_renames h hplaced hproper htold s.targetDir

theorem kept_renameForTitle (h : Valid P s) {title : Text} (hs : step P s (.renameForTitle path title) = some s') :
    Kept P s (.renameForTitle path title) s' ↔ Harmless P s (.renameForTitle path title) := by
  simp only [step, Explorer.renameForTitle] at hs
  cases hrename : FileSystem.rename P path title s.world with
  | error e w =>
    rw [hrename] at hs
    cases hs
  | ok newPath w =>
    rw [hrename] at hs
    simp only at hs
    split_ifs at hs with heq
    · cases hs
    obtain rfl := Option.some.inj hs
    obtain ⟨rfl, hplaced, hproper⟩ := rename_placed hrename
    have htold : renames P s (.renameForTitle path title) = some (path, renamed P s.world.tree path title) := by
      simp only [renames, Explorer.renameForTitle, hrename, if_neg heq]
    exact kept_of_renames h hplaced hproper htold s.targetDir

theorem kept_move (h : Valid P s) {destDir : Path} {replace : Bool} {renameTo : Option Text}
    (hs : step P s (.move source destDir replace renameTo) = some s') :
    Kept P s (.move source destDir replace renameTo) s' ↔ Harmless P s (.move source destDir replace renameTo) := by
  simp only [step, Explorer.move] at hs
  split_ifs at hs with hnoop hinvalid hasks
  cases hmove : FileSystem.move P source destDir replace renameTo s.world with
  | error e w =>
    rw [hmove] at hs
    cases hs
  | ok newPath w =>
    rw [hmove] at hs
    obtain rfl := Option.some.inj hs
    obtain ⟨rfl, hplaced, hproper⟩ := move_placed hmove
    have htold : renames P s (.move source destDir replace renameTo) =
        some (source, moveDest P s.world.tree source destDir renameTo) := by
      simp only [renames, Explorer.move, if_neg hnoop, if_neg hinvalid, if_neg hasks, hmove]
    exact kept_of_renames h hplaced hproper htold destDir

theorem holds_of_root (hp : p = []) (h : P.key path <+: P.key p) : holds P path p = true := by
  subst hp
  have hpath : path = [] := by simpa [Platform.key] using h
  subst hpath
  simp [holds, Platform.equals]

theorem kept_delete (h : Valid P s) (hs : step P s (.delete path) = some s') :
    Kept P s (.delete path) s' ↔ Harmless P s (.delete path) := by
  simp only [step, Explorer.delete] at hs
  rcases OpenPath.delete_effect P path s.world with ⟨w, he, hnode⟩ | ⟨e, w, he, -⟩
  · rw [he] at hs
    obtain rfl := Option.some.inj hs
    have hin : ∀ p, InTree P s p → (InTree P { s with world := w } p ↔ (P.key path <+: P.key p → p = [])) := by
      intro p hp
      have hnil : P.key p = [] ↔ p = [] := by simp [Platform.key]
      unfold InTree DirTree.Exists
      rw [hnode, hnil]
      split_ifs with hbelow
      · simp [hp.1, hbelow]
      · have hex := hp.2
        unfold DirTree.Exists at hex
        rw [hnil] at hex
        simp [hp.1, hbelow, hex]
    constructor
    · intro hkept
      refine ⟨fun p hp hbelow => ?_, (hin _ h.target).mp hkept.valid.target, fun p hp hbelow => ?_⟩
      · by_contra hholds
        have hmem : s.selectedPath.filter (fun p => ! holds P path p) = some p :=
          Option.filter_eq_some_iff.mpr ⟨hp, by rw [Bool.eq_false_iff.mpr hholds]; rfl⟩
        have hnil := (hin p (h.selected p hp)).mp (hkept.valid.selected p hmem) hbelow
        exact hholds (holds_of_root hnil hbelow)
      · by_contra hholds
        have hmem : p ∈ s.expanded.filter fun p => ! holds P path p :=
          List.mem_filter.mpr ⟨hp, by rw [Bool.eq_false_iff.mpr hholds]; rfl⟩
        have hnil := (hin p (h.expanded p hp)).mp (hkept.valid.expanded p hmem) hbelow
        exact hholds (holds_of_root hnil hbelow)
    · rintro ⟨hselected, htarget, hexpanded⟩
      refine ⟨⟨fun p hp => ?_, (hin _ h.target).mpr htarget, fun p hp => ?_⟩, fun _ _ hr => by cases hr⟩
      · obtain ⟨hp, hholds⟩ := Option.filter_eq_some_iff.mp hp
        exact (hin p (h.selected p hp)).mpr fun hbelow => by simp [hselected p hp hbelow] at hholds
      · obtain ⟨hp, hholds⟩ := List.mem_filter.mp hp
        exact (hin p (h.expanded p hp)).mpr fun hbelow => by simp [hexpanded p hp hbelow] at hholds
  · rw [he] at hs
    cases hs

/-- **An operation that succeeds keeps the pointers exactly if it takes none with it that it does not move or
clear.** -/
theorem kept_iff (h : Valid P s) (hs : step P s a = some s') : Kept P s a s' ↔ Harmless P s a := by
  cases a with
  | createFile rawName dirPath => exact kept_createFile h hs
  | createFolder rawName dirPath => exact kept_createFolder h hs
  | rename path newName => exact kept_rename h hs
  | renameForTitle path title => exact kept_renameForTitle h hs
  | move source destDir replace renameTo => exact kept_move h hs
  | delete path => exact kept_delete h hs

/-- A root has just been set. -/
theorem valid_setRoot {w : World} {rootPath : Path} (h : w.tree.Exists (P.key rootPath)) :
    Valid P (setRoot w rootPath) :=
  ⟨nofun, ⟨List.prefix_rfl, h⟩, nofun⟩

end Pointers

section Decidable
variable (s : Explorer) (source dest p : Path)

instance (t : DirTree Text) : Decidable (Remains P t source dest p) := inferInstanceAs (Decidable (_ ∧ _ ∨ _ ∧ _ ∧ _))

instance : Decidable (Stays P s source dest p) := inferInstanceAs (Decidable (_ ∧ _))

instance : Decidable (CreatesInside P s p) := inferInstanceAs (Decidable (_ ∧ _))

instance (targetDir : Path) : Decidable (Spares P s source dest targetDir) :=
  decidable_of_iff ((∀ p ∈ s.expanded,
        Stays P s source dest p ∧ (holds P source p = true → s.expanded.contains (remap P p source dest) = true)) ∧
      (∀ p ∈ s.selectedPath,
        if holds P source p then P.key s.rootPath <+: P.key (remap P p source dest) else Stays P s source dest p) ∧
      Stays P s source dest targetDir ∧ ∀ p ∈ ancestors s.rootPath dest, Stays P s source dest p)
    ⟨fun ⟨h1, h2, h3, h4⟩ => ⟨by simpa only [List.contains_iff_mem] using h1, h2, h3, h4⟩,
      fun ⟨h1, h2, h3, h4⟩ => ⟨by simpa only [List.contains_iff_mem] using h1, h2, h3, h4⟩⟩

instance : DecidablePred (Harmless P s)
  | .createFile _ _ => inferInstanceAs (Decidable (CreatesInside P s _))
  | .createFolder _ _ => inferInstanceAs (Decidable (CreatesInside P s _))
  | .rename path _ => inferInstanceAs (Decidable (Spares P s path _ _))
  | .renameForTitle path _ => inferInstanceAs (Decidable (Spares P s path _ _))
  | .move source destDir _ _ => inferInstanceAs (Decidable (Spares P s source _ destDir))
  | .delete _ => inferInstanceAs (Decidable (_ ∧ _ ∧ _))

end Decidable

/-- A root with nothing in it. -/
def emptyRoot : Explorer :=
  setRoot (settled (DirTree.ofEntries [([['r']], ⟨['r'], .dir⟩)] (by decide))) [['r']]

/-- A note is made in a folder, renamed and moved out, and the folder is deleted. -/
def tidy : List Action :=
  [.createFolder ['f'] none, .createFile ['a'] none, .rename [['r'], ['f'], "a.md".toList] ['b'],
    .move [['r'], ['f'], "b.md".toList] [['r']] false none, .delete [['r'], ['f']]]

end Notely.Desktop.ExplorerPointers
