import Notely.Desktop.OpenPath
import Notely.Desktop.TitleSync

/-! # Creating notes and folders

`createFile` and `createFolder` of `services/filesystem/file_system_service.dart`. A note is created with the folders
on the way to it, and then its heading is written.

* `createFile_made`, `createFolder_made`: what is created is there, and all that was there still is.
* `extends_makeDirs`: folders that are made leave every other entry as it is. -/

namespace Notely.Desktop.Creation

open Notely.Lib.Strings Notely.Lib.Paths Notely.Lib.FileTree Notely.Desktop.Dart Notely.Desktop.FileSystem
open Notely.Desktop.OpenPath (osChange_cases)
open Notely.Desktop.TitleSync (stem)

variable (P : Platform)

/-! ### What the operating system creates -/

/-- The path is free for an entry, or that of a file. -/
structure Puttable (t : DirTree Text) (path : Path) : Prop where
  ne_root : P.key path ≠ []
  parent : t.DirAt (P.key path).dropLast
  notDir : ¬ t.DirAt (P.key path)

instance (t : DirTree Text) (path : Path) : Decidable (Puttable P t path) :=
  decidable_of_iff (P.key path ≠ [] ∧ t.DirAt (P.key path).dropLast ∧ ¬ t.DirAt (P.key path))
    ⟨fun ⟨h1, h2, h3⟩ => ⟨h1, h2, h3⟩, fun ⟨h1, h2, h3⟩ => ⟨h1, h2, h3⟩⟩

/-- A directory is made, if there is none. -/
def makeDir (path : Path) (t : DirTree Text) : Option (DirTree Text) :=
  if t.DirAt (P.key path) then some t
  else if h : Puttable P t path ∧ t.node (P.key path) = none then
    some (t.put (P.key path) ⟨basename path, .dir⟩ h.1.ne_root h.1.parent h.1.notDir)
  else none

/-- The directories on a way are made. -/
def makeDirs : Path → Path → DirTree Text → Option (DirTree Text)
  | _, [], t => some t
  | dir, c :: rest, t => (makeDir P (dir ++ [c]) t).bind (makeDirs (dir ++ [c]) rest)

/-- A file gets its content; one that exists keeps the case of its name. -/
def writeFile (path : Path) (content : Text) (t : DirTree Text) : Option (DirTree Text) :=
  if h : Puttable P t path then
    let name := ((t.entry (P.key path)).map Entry.name).getD (basename path)
    some (t.put (P.key path) ⟨name, .file content⟩ h.ne_root h.parent h.notDir)
  else none

/-! ### Creating -/

/-- `createFile`. -/
def createFile (dirPath : Path) (rawName : Text) : Fs Path := do
  let name := P.ensureMarkdown rawName
  let path := join dirPath name
  if ← fileExists P path then
    throw (.exception ("A file named \"".toList ++ name ++ "\" already exists".toList) path)
  else
    osChange fun t => (makeDirs P [] (dirname path) t).bind (writeFile P path [])
    osChange (writeFile P path ("# ".toList ++ stem (join [] name) ++ "\n\n".toList))
    pure path

/-- `createFolder`. -/
def createFolder (dirPath : Path) (rawName : Text) : Fs Path := do
  let name := trim rawName
  let path := join dirPath name
  if name = [] then throw (.exception "Folder name cannot be empty".toList [])
  else if ← directoryExists P path then
    throw (.exception ("A folder named \"".toList ++ name ++ "\" already exists".toList) path)
  else
    osChange (makeDir P path)
    pure path

/-! ### What was there still is -/

/-- An entry has come to a path, and none has gone. -/
structure Made (t t' : DirTree Text) (path : Path) : Prop where
  there : t'.Exists (P.key path)
  kept : ∀ q, t.Exists q → t'.Exists q

section Made
variable {P} {t t' : DirTree Text} {w w' : World} {path path' dirPath dir rest : Path} {name content : Text}

theorem made_put {e : Entry Text} (h : Puttable P t path) :
    Made P t (t.put (P.key path) e h.ne_root h.parent h.notDir) path := by
  refine ⟨Or.inr (by rw [DirTree.node_put, if_pos rfl]; rfl), fun q hq => hq.imp id fun hs => ?_⟩
  rw [DirTree.node_put]
  split_ifs
  · rfl
  · exact hs

theorem made_makeDir (h : makeDir P path t = some t') : Made P t t' path := by
  unfold makeDir at h
  split_ifs at h with hdir hput
  · obtain rfl := Option.some.inj h
    exact ⟨DirTree.exists_of_dirAt hdir, fun _ hq => hq⟩
  · obtain rfl := Option.some.inj h
    exact made_put hput.1

theorem made_writeFile (h : writeFile P path content t = some t') : Made P t t' path := by
  unfold writeFile at h
  split_ifs at h with hput
  obtain rfl := Option.some.inj h
  exact made_put hput

/-- What is in the one tree is in the other as it is. -/
def Extends (t t' : DirTree Text) : Prop := ∀ q, (t.node q).isSome → t'.node q = t.node q

theorem Extends.trans {t1 : DirTree Text} (h : Extends t t1) (h' : Extends t1 t') : Extends t t' := by
  intro q hq
  have hq1 : (t1.node q).isSome := by rwa [h q hq]
  rw [h' q hq1, h q hq]

theorem Extends.exists {q : Path} (h : Extends t t') (hq : t.Exists q) : t'.Exists q :=
  hq.imp id fun hsome => by rwa [h q hsome]

theorem extends_put {e : Entry Text} (h : Puttable P t path) (hfree : t.node (P.key path) = none) :
    Extends t (t.put (P.key path) e h.ne_root h.parent h.notDir) := by
  intro q hq
  have hne : q ≠ P.key path := by
    rintro rfl
    rw [hfree] at hq
    cases hq
  rw [DirTree.node_put, if_neg hne]

theorem extends_makeDir (h : makeDir P path t = some t') : Extends t t' := by
  unfold makeDir at h
  split_ifs at h with hdir hput
  · obtain rfl := Option.some.inj h
    exact fun _ _ => rfl
  · obtain rfl := Option.some.inj h
    exact extends_put hput.1 hput.2

theorem extends_makeDirs (h : makeDirs P dir rest t = some t') : Extends t t' := by
  induction rest generalizing dir t with
  | nil =>
    obtain rfl := Option.some.inj h
    exact fun _ _ => rfl
  | cons c rest ih =>
    obtain ⟨t1, h1, h2⟩ := Option.bind_eq_some_iff.mp h
    exact (extends_makeDir h1).trans (ih h2)

/-- A change that the operating system makes. -/
theorem osChange_ok {f : DirTree Text → Option (DirTree Text)} (h : osChange f w = .ok () w') :
    f w.tree = some w'.tree := by
  rcases osChange_cases f w with ⟨t, -, ht, he⟩ | ⟨-, he⟩
  · rw [he] at h
    obtain ⟨-, rfl⟩ := EStateM.Result.ok.inj h
    exact ht
  · rw [he] at h
    cases h

/-- The calls of a sequence that has a result. -/
theorem bind_ok {α β : Type} {x : Fs α} {k : α → Fs β} {b : β} (h : (x >>= k) w = .ok b w') :
    ∃ a w1, x w = .ok a w1 ∧ k a w1 = .ok b w' := by
  simp only [bind, EStateM.bind] at h
  cases hx : x w with
  | ok a w1 =>
    rw [hx] at h
    exact ⟨a, w1, rfl, h⟩
  | error e w1 =>
    rw [hx] at h
    cases h

/-- What follows a change, if it is made. -/
theorem bind_osChange_ok {f : DirTree Text → Option (DirTree Text)} {k : Unit → Fs Path}
    (h : (osChange f >>= k) w = .ok path w') : ∃ w1, f w.tree = some w1.tree ∧ k () w1 = .ok path w' := by
  obtain ⟨⟨⟩, w1, hchange, hrest⟩ := bind_ok h
  exact ⟨w1, osChange_ok hchange, hrest⟩

/-- **A note is created**: it is there, and all that was there still is. -/
theorem createFile_made (h : createFile P dirPath name w = .ok path w') :
    path = join dirPath (P.ensureMarkdown name) ∧ Made P w.tree w'.tree path := by
  have hlook : ∀ q, fileExists P q w = .ok ((w.tree.node (P.key q)).any Node.isFile) w := fun _ => rfl
  simp only [createFile, bind, EStateM.bind, hlook] at h
  split_ifs at h
  · cases h
  obtain ⟨w1, h1, h⟩ := bind_osChange_ok h
  obtain ⟨w2, h2, h⟩ := bind_osChange_ok h
  obtain ⟨rfl, rfl⟩ := EStateM.Result.ok.inj h
  obtain ⟨t1, hdirs, hfile⟩ := Option.bind_eq_some_iff.mp h1
  refine ⟨rfl, (made_writeFile h2).there, fun q hq => ?_⟩
  exact (made_writeFile h2).kept q ((made_writeFile hfile).kept q ((extends_makeDirs hdirs).exists hq))

/-- **A folder is created.** -/
theorem createFolder_made (h : createFolder P dirPath name w = .ok path w') :
    path = join dirPath (trim name) ∧ Made P w.tree w'.tree path := by
  have hlook : ∀ q, directoryExists P q w = .ok (decide (w.tree.DirAt (P.key q))) w := fun _ => rfl
  simp only [createFolder] at h
  split_ifs at h
  · cases h
  simp only [bind, EStateM.bind, hlook] at h
  split_ifs at h
  · cases h
  obtain ⟨w1, h1, h⟩ := bind_osChange_ok h
  obtain ⟨rfl, rfl⟩ := EStateM.Result.ok.inj h
  exact ⟨rfl, made_makeDir h1⟩

end Made

end Notely.Desktop.Creation
