import Notely.Desktop.Dart
import Notely.Lib.FileTree

/-! # The client's file operations

`FileSystemService` of `services/filesystem/file_system_service.dart` over a directory tree: `rename`,
`move` and `delete` with their helpers. A path given with `..` is taken where it leads.

What differs between systems is a `Platform`: which names the file system holds for one (`fold`), which
paths `p.equals` holds for one, how Dart lowers a text, and whether renaming a folder onto an empty folder
replaces it. An entry of the tree is found under its folded path. The operating system renames a file onto
a file, replacing it, and a folder onto nothing, or onto an empty folder where the platform replaces it;
everything else it refuses.

An operation that throws leaves the tree as it was when it threw. `faults` tells which of the coming
deletions and renames of the operating system fail although they could be done. -/

namespace Notely.Desktop.FileSystem

open Notely.Lib.Strings Notely.Lib.Paths Notely.Lib.FileTree Notely.Desktop.Dart

/-! ### Platforms -/

structure Platform where
  /-- `toLowerCase`. -/
  lower : Text → Text
  /-- Names the file system holds for one have one folding. -/
  fold : Text → Text
  /-- Names `p.equals` holds for one have one image. -/
  equalsFold : Text → Text
  replacesEmptyDir : Bool
  fold_of_equals : ∀ a b, equalsFold a = equalsFold b → fold a = fold b
  fold_digits : ∀ s d e : Text, (∀ c ∈ d, c.isDigit) → (∀ c ∈ e, c.isDigit) →
    fold (s ++ d) = fold (s ++ e) → d = e

/-- A letter of the English alphabet in lower case. -/
def lowerAscii (s : Text) : Text := s.map Char.toLower

/-- A case-sensitive file system, as on Linux. -/
def posix : Platform where
  lower := lowerAscii
  fold := id
  equalsFold := id
  replacesEmptyDir := true
  fold_of_equals _ _ h := h
  fold_digits _ _ _ _ _ h := List.append_cancel_left h

variable (P : Platform)

namespace Platform

/-- Where the tree keeps the entry that a path names. -/
def key (p : Path) : Path := p.map P.fold

/-- `p.equals`. -/
def equals (p q : Path) : Bool := p.map P.equalsFold = q.map P.equalsFold

/-- `_isCaseOnlyRename`. -/
def isCaseOnlyRename (source dest : Path) : Bool :=
  if P.equals source dest then false else P.equals (source.map P.lower) (dest.map P.lower)

/-- `_ensureMarkdown`. -/
def ensureMarkdown (rawName : Text) : Text :=
  if trim rawName = [] then "Untitled.md".toList
  else if endsWith (P.lower (trim rawName)) ".md".toList then trim rawName
  else trim rawName ++ ".md".toList

/-- The `name` of `rename`. -/
def renameName (isDir : Bool) (newName : Text) : Text :=
  if isDir then trim newName else P.ensureMarkdown newName

/-- The `name` of `move`. -/
def moveName (isDir : Bool) (source : Path) : Option Text → Text
  | some renameTo => P.renameName isDir renameTo
  | none => basename source

variable {P} {p q : Path}

theorem key_of_equals (h : P.equals p q = true) : P.key p = P.key q := by
  simp only [equals, decide_eq_true_eq] at h
  unfold key
  induction p generalizing q with
  | nil =>
    cases q with
    | nil => rfl
    | cons _ _ => simp at h
  | cons a p ih =>
    cases q with
    | nil => simp at h
    | cons b q =>
      simp only [List.map_cons, List.cons.injEq] at h ⊢
      exact ⟨P.fold_of_equals a b h.1, ih h.2⟩

@[simp] theorem length_key : (P.key p).length = p.length := by simp [key]

theorem length_of_caseOnly (h : P.isCaseOnlyRename p q = true) : p.length = q.length := by
  unfold isCaseOnlyRename equals at h
  split_ifs at h
  simpa using congrArg List.length (of_decide_eq_true h)

theorem key_concat (c : Text) : P.key (p ++ [c]) = P.key p ++ [P.fold c] := by simp [key]

theorem key_dirname : (P.key p).dropLast = P.key (dirname p) := by
  simp [key, dirname, List.map_dropLast]

end Platform

/-! ### The world -/

/-- What an operation throws. -/
inductive FsError
  | exception (message : Text) (path : Path)
  | os
  deriving DecidableEq

/-- The files, and which of the coming changes the operating system fails to make. -/
structure World where
  tree : DirTree Text
  faults : List Bool

abbrev Fs := EStateM FsError World

/-- A change the operating system makes, if it can and does not fail. -/
def osChange (f : DirTree Text → Option (DirTree Text)) : Fs Unit := fun w =>
  match w.faults.headD false, f w.tree with
  | false, some t => .ok () { tree := t, faults := w.faults.tail }
  | _, _ => .error .os { w with faults := w.faults.tail }

/-- `File(path).exists`. -/
def fileExists (path : Path) : Fs Bool := fun w =>
  .ok ((w.tree.node (P.key path)).any Node.isFile) w

/-- `Directory(path).exists`. -/
def directoryExists (path : Path) : Fs Bool := fun w => .ok (w.tree.DirAt (P.key path)) w

/-- `exists`. -/
def pathExists (path : Path) : Fs Bool := fun w => .ok (w.tree.Exists (P.key path)) w

/-- The entry at a path is a folder, or a file, as told. -/
def KindIs (t : DirTree Text) (isDir : Bool) (p : Path) : Prop :=
  match t.node p with
  | some .dir => isDir = true
  | some (.file _) => isDir = false
  | none => False

/-- What lies at a path makes way for a file, or a folder, renamed onto it. -/
def MakesWay (t : DirTree Text) (isDir : Bool) (p : Path) : Prop :=
  match t.node p with
  | some .dir => isDir = true ∧ P.replacesEmptyDir = true ∧ t.Childless p
  | some (.file _) => isDir = false
  | none => True

instance (t : DirTree Text) (isDir : Bool) (p : Path) : Decidable (KindIs t isDir p) := by
  unfold KindIs
  split <;> infer_instance

instance (t : DirTree Text) (isDir : Bool) (p : Path) : Decidable (MakesWay P t isDir p) := by
  unfold MakesWay
  split <;> infer_instance

/-- The operating system can rename the file or folder at `src` to `dst`. -/
structure Renamable (t : DirTree Text) (isDir : Bool) (src dst : Path) : Prop where
  kind : KindIs t isDir (P.key src)
  ne_root : P.key dst ≠ []
  parent : t.DirAt (P.key dst).dropLast
  notInside : P.key src <+: P.key dst → P.key src = P.key dst
  way : P.key src = P.key dst ∨ MakesWay P t isDir (P.key dst)

instance (t : DirTree Text) (isDir : Bool) (src dst : Path) : Decidable (Renamable P t isDir src dst) :=
  decidable_of_iff (KindIs t isDir (P.key src) ∧ P.key dst ≠ [] ∧ t.DirAt (P.key dst).dropLast ∧
      (P.key src <+: P.key dst → P.key src = P.key dst) ∧
        (P.key src = P.key dst ∨ MakesWay P t isDir (P.key dst)))
    ⟨fun ⟨h1, h2, h3, h4, h5⟩ => ⟨h1, h2, h3, h4, h5⟩, fun ⟨h1, h2, h3, h4, h5⟩ => ⟨h1, h2, h3, h4, h5⟩⟩

theorem KindIs.isSome {t : DirTree Text} {isDir : Bool} {p : Path} (h : KindIs t isDir p) :
    (t.node p).isSome := by
  unfold KindIs at h
  split at h <;> simp_all

/-- The tree after a rename. -/
def Renamable.tree {P : Platform} {t : DirTree Text} {isDir : Bool} {src dst : Path}
    (h : Renamable P t isDir src dst) : DirTree Text :=
  t.relocate (P.key src) (P.key dst) (basename dst) h.kind.isSome h.ne_root h.parent h.notInside

/-- Where the entries are after a rename. -/
theorem Renamable.node_tree {P : Platform} {t : DirTree Text} {isDir : Bool} {src dst : Path}
    (h : Renamable P t isDir src dst) (q : Path) :
    h.tree.node q =
      if P.key dst <+: q then t.node (P.key src ++ q.drop dst.length)
      else if P.key src <+: q then none else t.node q := by
  have := DirTree.node_relocate (basename dst) h.kind.isSome h.ne_root h.parent h.notInside q
  rwa [P.length_key] at this

/-- `entity.rename(newPath)` of a `Directory` or a `File`. -/
def entityRename (isDir : Bool) (src dst : Path) : Fs Unit :=
  osChange fun t => if h : Renamable P t isDir src dst then some h.tree else none

/-- `delete`. -/
def delete (path : Path) : Fs Unit := do
  if ← directoryExists P path then osChange fun t => some (t.remove (P.key path))
  else if ← fileExists P path then osChange fun t => some (t.remove (P.key path))
  else pure ()

/-! ### Renaming and moving -/

/-- `.name.notely-tmp`, then `.name.notely-tmp0` and so on. -/
def tempName (base : Text) : ℕ → Text
  | 0 => '.' :: base ++ ".notely-tmp".toList
  | i + 1 => '.' :: base ++ ".notely-tmp".toList ++ digits i

def tempPath (dest : Path) (k : ℕ) : Path := dirname dest ++ [tempName (basename dest) k]

/-- The temporary name that the loop of `_renameEntity` ends with. -/
def tempIndex (t : DirTree Text) (dest : Path) : ℕ :=
  firstFree (fun k => t.Exists (P.key (tempPath dest k))) (t.support.length + 1) 0

/-- `_renameEntity`. -/
def renameEntity (isDir : Bool) (source dest : Path) (caseOnly : Bool) : Fs Path := do
  if caseOnly then
    let w ← get
    entityRename P isDir source (tempPath dest (tempIndex P w.tree dest))
    entityRename P isDir (tempPath dest (tempIndex P w.tree dest)) dest
    pure dest
  else
    entityRename P isDir source dest
    pure dest

/-- `rename`. -/
def rename (path : Path) (newName : Text) : Fs Path := do
  let isDir ← directoryExists P path
  let name := P.renameName isDir newName
  let dest := join (dirname path) name
  if name = [] then throw (.exception "Name cannot be empty".toList path)
  else if P.equals dest path then pure path
  else if !P.isCaseOnlyRename path dest && (← pathExists P dest) then
    throw (.exception ("A ".toList ++ (if isDir then "folder".toList else "file".toList) ++
      " named \"".toList ++ name ++ "\" already exists".toList) dest)
  else renameEntity P isDir path dest (P.isCaseOnlyRename path dest)

/-- `move`. -/
def move (source destDir : Path) (replace : Bool) (renameTo : Option Text) : Fs Path := do
  let isDir ← directoryExists P source
  let name := P.moveName isDir source renameTo
  let dest := join destDir name
  if !P.isCaseOnlyRename source dest && !P.equals dest source && (← pathExists P dest) then
    if replace then delete P dest
    else throw (.exception ("An item named \"".toList ++ name ++ "\" already exists here".toList) dest)
  renameEntity P isDir source dest (P.isCaseOnlyRename source dest)

end Notely.Desktop.FileSystem
