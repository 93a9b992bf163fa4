import Mathlib.Logic.Function.Iterate
import Notely.Desktop.FileSystem
import Notely.Desktop.ReadTree

/-! # What a read of a still disk lists

`readTree` of `Desktop/ReadTree` while the disk does not change, and over a tree of `Desktop/FileSystem`: the read ends,
and what it lists is told by the entries on the way there.

* `answers_readDir`: the reading of a directory, with the readings of its folders.
* `listed_iff`: the nodes listed are the entries that are shown, in folders that are. -/

namespace Notely.Desktop.ListedNodes

open Notely.Lib.Strings Notely.Lib.Paths Notely.Lib.FileTree Notely.Desktop.Dart Notely.Desktop.ReadTree
open Notely.Desktop.FileSystem (Platform)

section Still
variable (lower : Text → Text) (byName : List FsNode → List FsNode) (disk : Disk)

/-! ### Reading a directory -/

/-- A name of a note or an image. -/
def noteOrImage (name : Text) : Bool :=
  endsWith (lower name) ".md".toList || FsNode.imageExtensions.contains (lower (FsNode.extension name))

/-- The loop of `_readDir`: the folders and the files of a listing. -/
def loop (readDir : Path → Option (List FsNode)) (dirPath : Path) : List Entity → Option (List FsNode × List FsNode)
  | [] => some ([], [])
  | e :: es =>
    if e.name.head? = some '.' then loop readDir dirPath es
    else
      match e.kind with
      | .directory => (readDir (dirPath ++ [e.name])).bind fun children =>
          (loop readDir dirPath es).map fun r => (FsNode.mk (dirPath ++ [e.name]) true children :: r.1, r.2)
      | .file =>
        if noteOrImage lower e.name then
          (loop readDir dirPath es).map fun r => (r.1, FsNode.mk (dirPath ++ [e.name]) false [] :: r.2)
        else loop readDir dirPath es
      | .link => loop readDir dirPath es

/-- `_readDir`, up to a depth. -/
def readDir : ℕ → Path → Option (List FsNode)
  | 0, _ => none
  | depth + 1, dirPath =>
    if disk.dirExists dirPath then
      match disk.list dirPath with
      | .error _ => none
      | .ok entities => (loop lower (readDir depth) dirPath entities).map fun r => byName r.1 ++ byName r.2
    else some []

/-- A read after so many answers. -/
def after (answers : ℕ) (p : Progress) : Progress := (Progress.answer lower byName disk)^[answers] p

/-- A loop under way goes on. -/
def goOn (f : Frame) (entities : List Entity) (stack : List Frame) : Progress :=
  match f.scan lower entities with
  | (f, true) => .checking (f.dirPath ++ [f.child]) (f :: stack)
  | (f, false) => giveBack lower byName (f.nodes byName) stack

/-- A node of a tree. -/
inductive Among (n : FsNode) : List FsNode → Prop
  | here {ns : List FsNode} (h : n ∈ ns) : Among n ns
  | inside {ns : List FsNode} {m : FsNode} (hm : m ∈ ns) (h : Among n m.children) : Among n ns

/-- **`readTree` lists the node.** -/
def Listed (rootPath : Path) (n : FsNode) : Prop :=
  ∃ answers roots, readTree lower byName rootPath (List.replicate answers disk) = .done roots ∧ Among n roots

/-- An entry that the tree does not show. -/
def Passed (e : Entity) : Prop :=
  e.name.head? = some '.' ∨ e.kind = .file ∧ noteOrImage lower e.name = false ∨ e.kind = .link

/-- A folder lists a folder, or a note or an image, and shows it. -/
structure Shows (dirPath : Path) (name : Text) (isDirectory : Bool) : Prop where
  there : disk.dirExists dirPath = true
  entry : ∃ entities, disk.list dirPath = .ok entities ∧
    ⟨name, if isDirectory then .directory else .file⟩ ∈ entities
  visible : name.head? ≠ some '.'
  kind : isDirectory = false → noteOrImage lower name = true

/-- An entry is shown in a folder that is shown, and so on. -/
def ShownAt : Path → List Text → Bool → Prop
  | _, [], _ => False
  | dirPath, [name], isDirectory => Shows lower disk dirPath name isDirectory
  | dirPath, name :: rest, isDirectory =>
    Shows lower disk dirPath name true ∧ ShownAt (dirPath ++ [name]) rest isDirectory

end Still

section Reading
variable {lower : Text → Text} {byName : List FsNode → List FsNode} {disk : Disk} {p : Progress}
  {readDir' : Path → Option (List FsNode)} {dirPath rootPath : Path} {entities : List Entity} {stack : List Frame}
  {nodes dirs files : List FsNode} {f : Frame} {n : FsNode} {depth k : ℕ} {e : Entity}

theorem readTree_replicate (rootPath : Path) (k : ℕ) :
    readTree lower byName rootPath (List.replicate k disk) = after lower byName disk k (.checking rootPath []) := by
  unfold readTree after
  generalize Progress.checking rootPath [] = p
  induction k generalizing p with
  | zero => rfl
  | succ k ih => exact ih (p.answer lower byName disk)

theorem after_add (j k : ℕ) (p : Progress) :
    after lower byName disk (j + k) p = after lower byName disk j (after lower byName disk k p) :=
  Function.iterate_add_apply _ j k p

theorem after_done (k : ℕ) (roots : List FsNode) : after lower byName disk k (.done roots) = .done roots := by
  induction k with
  | zero => rfl
  | succ k ih => exact ih

theorem goOn_folder (h : e.name.head? ≠ some '.') (hkind : e.kind = .directory) :
    goOn lower byName f (e :: entities) stack =
      .checking (f.dirPath ++ [e.name]) ({ f with child := e.name, rest := entities } :: stack) := by
  unfold goOn
  rw [Frame.scan, if_neg h, hkind]

theorem isMarkdown_or_isImage (dirPath : Path) (name : Text) :
    ((FsNode.mk (dirPath ++ [name]) false []).isMarkdown lower ||
      (FsNode.mk (dirPath ++ [name]) false []).isImage lower) = noteOrImage lower name := by
  simp [FsNode.isMarkdown, FsNode.isImage, FsNode.name, FsNode.path, FsNode.isDirectory, noteOrImage, basename]

theorem goOn_file (h : e.name.head? ≠ some '.') (hkind : e.kind = .file) (hshown : noteOrImage lower e.name = true) :
    goOn lower byName f (e :: entities) stack =
      goOn lower byName { f with files := f.files ++ [FsNode.mk (f.dirPath ++ [e.name]) false []] } entities stack := by
  unfold goOn
  rw [Frame.scan, if_neg h, hkind]
  dsimp only
  rw [isMarkdown_or_isImage, if_pos hshown]

theorem goOn_passed (h : Passed lower e) :
    goOn lower byName f (e :: entities) stack = goOn lower byName f entities stack := by
  unfold goOn
  rw [Frame.scan]
  split_ifs with hidden
  · rfl
  rcases h with h | ⟨hkind, hnot⟩ | hkind
  · exact absurd h hidden
  · rw [hkind]
    dsimp only
    rw [isMarkdown_or_isImage, hnot]
    rfl
  · rw [hkind]

/-- An entry in the loop is passed over, or a folder that is read, or a file that is shown. -/
theorem loop_cons (h : loop lower readDir' dirPath (e :: entities) = some (dirs, files)) :
    (Passed lower e ∧ loop lower readDir' dirPath entities = some (dirs, files)) ∨
    (e.name.head? ≠ some '.' ∧ e.kind = .directory ∧ ∃ children dirs',
      readDir' (dirPath ++ [e.name]) = some children ∧ loop lower readDir' dirPath entities = some (dirs', files) ∧
        dirs = FsNode.mk (dirPath ++ [e.name]) true children :: dirs') ∨
    (e.name.head? ≠ some '.' ∧ e.kind = .file ∧ noteOrImage lower e.name = true ∧ ∃ files',
      loop lower readDir' dirPath entities = some (dirs, files') ∧
        files = FsNode.mk (dirPath ++ [e.name]) false [] :: files') := by
  rw [loop] at h
  by_cases hidden : e.name.head? = some '.'
  · rw [if_pos hidden] at h
    exact Or.inl ⟨Or.inl hidden, h⟩
  rw [if_neg hidden] at h
  cases hkind : e.kind with
  | directory =>
    rw [hkind] at h
    obtain ⟨children, hchildren, h⟩ := Option.bind_eq_some_iff.mp h
    obtain ⟨⟨dirs', files'⟩, hrest, h⟩ := Option.map_eq_some_iff.mp h
    obtain ⟨rfl, rfl⟩ := Prod.mk.inj h
    exact Or.inr (Or.inl ⟨hidden, rfl, children, dirs', hchildren, hrest, rfl⟩)
  | file =>
    rw [hkind] at h
    dsimp only at h
    split_ifs at h with hshown
    · obtain ⟨⟨dirs', files'⟩, hrest, h⟩ := Option.map_eq_some_iff.mp h
      obtain ⟨rfl, rfl⟩ := Prod.mk.inj h
      exact Or.inr (Or.inr ⟨hidden, rfl, hshown, files', hrest, rfl⟩)
    · exact Or.inl ⟨Or.inr (Or.inl ⟨hkind, by simpa using hshown⟩), h⟩
  | link =>
    rw [hkind] at h
    exact Or.inl ⟨Or.inr (Or.inr hkind), h⟩

theorem giveBack_cons (nodes : List FsNode) (f : Frame) (stack : List Frame) :
    giveBack lower byName nodes (f :: stack) =
      goOn lower byName { f with dirs := f.dirs ++ [FsNode.mk (f.dirPath ++ [f.child]) true nodes] } f.rest stack := by
  rw [giveBack]
  rfl

/-- The loop over a listing ends, and its directory is given back. -/
theorem answers_loop
    (hread : ∀ p nodes stack, readDir' p = some nodes →
      ∃ k, after lower byName disk k (.checking p stack) = giveBack lower byName nodes stack)
    (h : loop lower readDir' f.dirPath entities = some (dirs, files)) :
    ∃ k, after lower byName disk k (goOn lower byName f entities stack) =
      giveBack lower byName (byName (f.dirs ++ dirs) ++ byName (f.files ++ files)) stack := by
  induction entities generalizing f dirs files with
  | nil =>
    obtain ⟨rfl, rfl⟩ := Prod.mk.inj (Option.some.inj h)
    exact ⟨0, by rw [List.append_nil, List.append_nil]; rfl⟩
  | cons e entities ih =>
    rcases loop_cons h with ⟨hpassed, hrest⟩ | ⟨hidden, hkind, children, dirs', hchildren, hrest, rfl⟩ |
      ⟨hidden, hkind, hshown, files', hrest, rfl⟩
    · rw [goOn_passed hpassed]
      exact ih hrest
    · -- the folder is read, and then the rest of the listing
      obtain ⟨k1, hk1⟩ := hread _ _ ({ f with child := e.name, rest := entities } :: stack) hchildren
      rw [giveBack_cons] at hk1
      obtain ⟨k2, hk2⟩ := ih (f := { f with
        dirs := f.dirs ++ [FsNode.mk (f.dirPath ++ [e.name]) true children], child := e.name, rest := entities }) hrest
      refine ⟨k2 + k1, ?_⟩
      rw [goOn_folder hidden hkind, after_add, hk1, hk2, List.append_assoc]
      rfl
    · obtain ⟨k, hk⟩ := ih (f := { f with files := f.files ++ [FsNode.mk (f.dirPath ++ [e.name]) false []] }) hrest
      exact ⟨k, by rw [goOn_file hidden hkind hshown, hk, List.append_assoc]; rfl⟩

/-- **A directory is read**, and given back to the loop it was found in. -/
theorem answers_readDir (h : readDir lower byName disk depth dirPath = some nodes) (stack : List Frame) :
    ∃ k, after lower byName disk k (.checking dirPath stack) = giveBack lower byName nodes stack := by
  induction depth generalizing dirPath nodes stack with
  | zero => cases h
  | succ depth ih =>
    rw [readDir] at h
    split_ifs at h with hexists
    · cases hlist : disk.list dirPath with
      | error message =>
        rw [hlist] at h
        cases h
      | ok entities =>
        rw [hlist] at h
        obtain ⟨⟨dirs, files⟩, hloop, rfl⟩ := Option.map_eq_some_iff.mp h
        obtain ⟨k, hk⟩ : ∃ k, after lower byName disk k (goOn lower byName { dirPath := dirPath } entities stack) =
            giveBack lower byName (byName ([] ++ dirs) ++ byName ([] ++ files)) stack :=
          answers_loop (fun p nodes stack hp => ih hp stack) hloop
        refine ⟨k + 2, ?_⟩
        have htwo : after lower byName disk 2 (.checking dirPath stack) =
            goOn lower byName { dirPath := dirPath } entities stack := by
          show Progress.answer lower byName disk (Progress.answer lower byName disk (.checking dirPath stack)) = _
          rw [Progress.answer, if_pos hexists, Progress.answer, hlist]
          rfl
        rw [after_add, htwo, hk]
        rfl
    · obtain rfl := Option.some.inj h
      refine ⟨1, ?_⟩
      show Progress.answer lower byName disk (.checking dirPath stack) = _
      rw [Progress.answer, if_neg hexists]

/-- What `readTree` lists is what its reading of the root has. -/
theorem listed_iff_among (h : readDir lower byName disk depth rootPath = some nodes) :
    Listed lower byName disk rootPath n ↔ Among n nodes := by
  obtain ⟨k, hk⟩ := answers_readDir h []
  have hdone : after lower byName disk k (.checking rootPath []) = .done nodes := hk
  constructor
  · rintro ⟨j, roots, hroots, hn⟩
    rw [readTree_replicate] at hroots
    have hj := @after_done lower byName disk k roots
    have hk := @after_done lower byName disk j nodes
    rw [← hroots, ← after_add, Nat.add_comm, after_add, hdone, hk, hroots] at hj
    obtain rfl := Progress.done.inj hj
    exact hn
  · exact fun hn => ⟨k, nodes, by rw [readTree_replicate, hdone], hn⟩

/-! ### What is listed -/

/-- What the loop makes of the entries: a folder with its children, or a file. -/
theorem mem_loop (h : loop lower readDir' dirPath entities = some (dirs, files)) (n : FsNode) :
    (n ∈ dirs ↔ ∃ e ∈ entities, e.name.head? ≠ some '.' ∧ e.kind = .directory ∧
      ∃ children, readDir' (dirPath ++ [e.name]) = some children ∧ n = FsNode.mk (dirPath ++ [e.name]) true children) ∧
    (n ∈ files ↔ ∃ e ∈ entities, e.name.head? ≠ some '.' ∧ e.kind = .file ∧ noteOrImage lower e.name = true ∧
      n = FsNode.mk (dirPath ++ [e.name]) false []) := by
  induction entities generalizing dirs files with
  | nil =>
    obtain ⟨rfl, rfl⟩ := Prod.mk.inj (Option.some.inj h)
    simp
  | cons e entities ih =>
    simp only [List.exists_mem_cons_iff]
    rcases loop_cons h with ⟨hpassed, hrest⟩ | ⟨hidden, hkind, children, dirs', hchildren, hrest, rfl⟩ |
      ⟨hidden, hkind, hshown, files', hrest, rfl⟩
    · obtain ⟨hdirs, hfiles⟩ := ih hrest
      rcases hpassed with hidden | ⟨hkind, hnot⟩ | hkind
      · simp [hidden, hdirs, hfiles]
      · simp [hkind, hnot, hdirs, hfiles]
      · simp [hkind, hdirs, hfiles]
    · obtain ⟨hdirs, hfiles⟩ := ih hrest
      simp [hidden, hkind, hchildren, hdirs, hfiles]
    · obtain ⟨hdirs, hfiles⟩ := ih hrest
      simp [hidden, hkind, hshown, hdirs, hfiles]

/-- The loop has its result once the folders shown have theirs. -/
theorem loop_isSome_iff : (loop lower readDir' dirPath entities).isSome ↔
    ∀ e ∈ entities, e.name.head? ≠ some '.' → e.kind = .directory → (readDir' (dirPath ++ [e.name])).isSome := by
  induction entities with
  | nil => simp [loop]
  | cons e entities ih =>
    rw [loop, List.forall_mem_cons]
    by_cases hidden : e.name.head? = some '.'
    · simp [hidden, ih]
    rw [if_neg hidden]
    cases hkind : e.kind with
    | directory => cases hread : readDir' (dirPath ++ [e.name]) <;> simp [hidden, ih]
    | file => split_ifs <;> simp [ih]
    | link => simp [ih]

/-- The nodes of a directory are what it shows. -/
theorem mem_readDir (hperm : ∀ l, (byName l).Perm l) (h : readDir lower byName disk (depth + 1) dirPath = some nodes)
    (n : FsNode) : n ∈ nodes ↔
      (∃ name children, Shows lower disk dirPath name true ∧
        readDir lower byName disk depth (dirPath ++ [name]) = some children ∧
          n = FsNode.mk (dirPath ++ [name]) true children) ∨
      ∃ name, Shows lower disk dirPath name false ∧ n = FsNode.mk (dirPath ++ [name]) false [] := by
  rw [readDir] at h
  split_ifs at h with hexists
  · cases hlist : disk.list dirPath with
    | error message =>
      rw [hlist] at h
      cases h
    | ok entities =>
      rw [hlist] at h
      obtain ⟨⟨dirs, files⟩, hloop, rfl⟩ := Option.map_eq_some_iff.mp h
      obtain ⟨hdirs, hfiles⟩ := mem_loop hloop n
      rw [List.mem_append, (hperm dirs).mem_iff, (hperm files).mem_iff, hdirs, hfiles]
      refine or_congr ⟨?_, ?_⟩ ⟨?_, ?_⟩
      · rintro ⟨⟨name, kind⟩, hmem, hvisible, rfl, children, hchildren, rfl⟩
        exact ⟨name, children, ⟨hexists, ⟨entities, hlist, hmem⟩, hvisible, nofun⟩, hchildren, rfl⟩
      · rintro ⟨name, children, hshows, hchildren, rfl⟩
        obtain ⟨entities', hlist', hmem⟩ := hshows.entry
        obtain rfl := Except.ok.inj (hlist.symm.trans hlist')
        exact ⟨_, hmem, hshows.visible, rfl, children, hchildren, rfl⟩
      · rintro ⟨⟨name, kind⟩, hmem, hvisible, rfl, hkind, rfl⟩
        exact ⟨name, ⟨hexists, ⟨entities, hlist, hmem⟩, hvisible, fun _ => hkind⟩, rfl⟩
      · rintro ⟨name, hshows, rfl⟩
        obtain ⟨entities', hlist', hmem⟩ := hshows.entry
        obtain rfl := Except.ok.inj (hlist.symm.trans hlist')
        exact ⟨_, hmem, hshows.visible, rfl, hshows.kind rfl, rfl⟩
  · obtain rfl := Option.some.inj h
    refine iff_of_false List.not_mem_nil ?_
    rintro (⟨name, children, hshows, -⟩ | ⟨name, hshows, -⟩)
    · exact hexists hshows.there
    · exact hexists hshows.there

/-- A node of the tree is shown where its path says. -/
theorem shownAt_of_among (hperm : ∀ l, (byName l).Perm l) (h : readDir lower byName disk depth dirPath = some nodes)
    (hn : Among n nodes) : ∃ rest, n.path = dirPath ++ rest ∧ ShownAt lower disk dirPath rest n.isDirectory := by
  induction depth generalizing dirPath nodes with
  | zero => cases h
  | succ depth ih =>
    cases hn with
    | here hmem =>
      rcases (mem_readDir hperm h n).mp hmem with ⟨name, children, hshows, -, rfl⟩ | ⟨name, hshows, rfl⟩
      · exact ⟨[name], rfl, hshows⟩
      · exact ⟨[name], rfl, hshows⟩
    | @inside _ m hm hn =>
      rcases (mem_readDir hperm h m).mp hm with ⟨name, children, hshows, hchildren, rfl⟩ | ⟨name, hshows, rfl⟩
      · obtain ⟨rest, hpath, hrest⟩ := ih hchildren hn
        refine ⟨name :: rest, by rw [hpath, List.append_assoc]; rfl, ?_⟩
        cases rest with
        | nil => cases hrest
        | cons c rest => exact ⟨hshows, hrest⟩
      · cases hn with
        | here h => cases h
        | inside h _ => cases h

/-- A folder that is shown has been read. -/
theorem exists_readDir_of_shows (h : readDir lower byName disk (depth + 1) dirPath = some nodes) {name : Text}
    (hshows : Shows lower disk dirPath name true) :
    ∃ children, readDir lower byName disk depth (dirPath ++ [name]) = some children := by
  obtain ⟨entities, hlist, hmem⟩ := hshows.entry
  rw [readDir, if_pos hshows.there, hlist] at h
  obtain ⟨r, hloop, -⟩ := Option.map_eq_some_iff.mp h
  have hsome := loop_isSome_iff.mp (Option.isSome_iff_exists.mpr ⟨r, hloop⟩) _ hmem hshows.visible rfl
  exact Option.isSome_iff_exists.mp hsome

/-- What is shown at a path is a node of the tree. -/
theorem among_of_shownAt (hperm : ∀ l, (byName l).Perm l) (h : readDir lower byName disk depth dirPath = some nodes)
    {rest : List Text} {isDirectory : Bool} (hshown : ShownAt lower disk dirPath rest isDirectory) :
    ∃ n, Among n nodes ∧ n.path = dirPath ++ rest ∧ n.isDirectory = isDirectory := by
  induction rest generalizing dirPath nodes depth with
  | nil => cases hshown
  | cons name rest ih =>
    cases depth with
    | zero => cases h
    | succ depth =>
      cases rest with
      | nil =>
        cases isDirectory with
        | false =>
          exact ⟨_, .here ((mem_readDir hperm h _).mpr (Or.inr ⟨name, hshown, rfl⟩)), rfl, rfl⟩
        | true =>
          obtain ⟨children, hchildren⟩ := exists_readDir_of_shows h hshown
          exact ⟨_, .here ((mem_readDir hperm h _).mpr (Or.inl ⟨name, children, hshown, hchildren, rfl⟩)), rfl, rfl⟩
      | cons c rest =>
        obtain ⟨children, hchildren⟩ := exists_readDir_of_shows h hshown.1
        obtain ⟨n, hn, hpath, hdir⟩ := ih hchildren hshown.2
        have hmem := (mem_readDir hperm h _).mpr (Or.inl ⟨name, children, hshown.1, hchildren, rfl⟩)
        refine ⟨n, .inside hmem hn, ?_, hdir⟩
        rw [hpath, List.append_assoc]
        rfl

theorem shownAt_concat {rest : List Text} {name : Text} {isDirectory : Bool} :
    ShownAt lower disk dirPath (rest ++ [name]) isDirectory ↔
      (rest = [] ∨ ShownAt lower disk dirPath rest true) ∧ Shows lower disk (dirPath ++ rest) name isDirectory := by
  induction rest generalizing dirPath with
  | nil => simp [ShownAt]
  | cons c rest ih =>
    have hcons : ShownAt lower disk dirPath (c :: rest ++ [name]) isDirectory ↔
        Shows lower disk dirPath c true ∧ ShownAt lower disk (dirPath ++ [c]) (rest ++ [name]) isDirectory := by
      cases rest <;> exact Iff.rfl
    have happend : dirPath ++ c :: rest = dirPath ++ [c] ++ rest := by
      rw [List.append_assoc]
      rfl
    rw [hcons, ih, happend, ← and_assoc]
    refine and_congr_left fun _ => ?_
    cases rest with
    | nil => simp [ShownAt]
    | cons d rest => simp [ShownAt]

end Reading

/-! ### The disk of a tree -/

section Tree
variable (P : Platform) (t : DirTree Text)

/-- What a directory of the tree lists. -/
def entities (dirPath : Path) : List Entity :=
  t.support.eraseDups.filterMap fun q =>
    if q ≠ [] ∧ q.dropLast = dirPath then
      (t.entry q).map fun e => ⟨e.name, if e.node = .dir then .directory else .file⟩
    else none

/-- A disk that stays as it is. -/
def still : Disk where
  dirExists p := t.DirAt (P.key p)
  list p := .ok (entities t (P.key p))

/-- Every entry is filed under the folding of its name. -/
def Filed : Prop := ∀ p c e, t.entry (p ++ [c]) = some e → P.fold e.name = c

variable {P t} {lower : Text → Text} {byName : List FsNode → List FsNode} {dirPath rootPath p : Path} {name : Text}
  {isDirectory : Bool} {n : FsNode}

theorem mem_entities {d : Path} {e : Entity} : e ∈ entities t d ↔ ∃ c entry, t.entry (d ++ [c]) = some entry ∧
    e = ⟨entry.name, if entry.node = .dir then .directory else .file⟩ := by
  unfold entities
  rw [List.mem_filterMap]
  constructor
  · rintro ⟨q, -, hq⟩
    split_ifs at hq with hin
    obtain ⟨entry, hentry, rfl⟩ := Option.map_eq_some_iff.mp hq
    obtain ⟨hne, rfl⟩ := hin
    refine ⟨q.getLast hne, entry, ?_, rfl⟩
    rw [List.dropLast_concat_getLast]
    exact hentry
  · rintro ⟨c, entry, hentry, rfl⟩
    refine ⟨d ++ [c], List.mem_eraseDups.mpr (t.mem_support _ (by simp [hentry])), ?_⟩
    rw [if_pos ⟨by simp, List.dropLast_concat⟩, hentry]
    rfl

/-- What a folder of the tree shows. -/
theorem shows_still (hfiled : Filed P t) : Shows lower (still P t) dirPath name isDirectory ↔
    name.head? ≠ some '.' ∧ (isDirectory = false → noteOrImage lower name = true) ∧
      ∃ e, t.entry (P.key (dirPath ++ [name])) = some e ∧ e.name = name ∧ (e.node = .dir ↔ isDirectory = true) := by
  have hkind : ∀ node : Node Text, (if isDirectory = true then Kind.directory else Kind.file) =
      (if node = .dir then Kind.directory else Kind.file) ↔ (node = .dir ↔ isDirectory = true) := by
    intro node
    cases node <;> cases isDirectory <;> simp
  constructor
  · intro h
    obtain ⟨es, hlist, hmem⟩ := h.entry
    obtain rfl := Except.ok.inj hlist
    obtain ⟨c, e, hentry, heq⟩ := mem_entities.mp hmem
    obtain ⟨rfl, hnode⟩ := Entity.mk.inj heq
    refine ⟨h.visible, h.kind, e, ?_, rfl, (hkind e.node).mp hnode⟩
    rw [P.key_concat, hfiled _ _ _ hentry]
    exact hentry
  · rintro ⟨hvisible, hnote, e, hentry, rfl, hnode⟩
    rw [P.key_concat] at hentry
    have hparent := t.parent (P.key dirPath) (P.fold e.name) (by simp [hentry])
    refine ⟨?_, ⟨_, rfl, mem_entities.mpr ⟨_, e, hentry, ?_⟩⟩, hvisible, hnote⟩
    · exact decide_eq_true (DirTree.dirAt_iff.mpr hparent)
    · rw [(hkind e.node).mpr hnode]

/-- What is shown depends on the entries on the way. -/
theorem shownAt_congr {t' : DirTree Text} (hfiled : Filed P t) (hfiled' : Filed P t') {rest : List Text}
    (h : ∀ q, q <+: P.key (dirPath ++ rest) → t'.entry q = t.entry q) :
    ShownAt lower (still P t') dirPath rest isDirectory ↔ ShownAt lower (still P t) dirPath rest isDirectory := by
  induction rest generalizing dirPath with
  | nil => exact Iff.rfl
  | cons c rest ih =>
    have happend : dirPath ++ c :: rest = dirPath ++ [c] ++ rest := by
      rw [List.append_assoc]
      rfl
    have hshows : ∀ b, Shows lower (still P t') dirPath c b ↔ Shows lower (still P t) dirPath c b := by
      intro b
      have hprefix : P.key (dirPath ++ [c]) <+: P.key (dirPath ++ c :: rest) := by
        rw [happend]
        exact (List.prefix_append _ _).map P.fold
      rw [shows_still hfiled, shows_still hfiled', h _ hprefix]
    cases rest with
    | nil => exact hshows isDirectory
    | cons d rest => exact and_congr (hshows true) (ih (by rwa [happend] at h))

/-- A read of a tree that is not too deep has a result. -/
theorem exists_readDir {depth : ℕ} (h : ∀ q ∈ t.support, q.length ≤ dirPath.length + depth) :
    (readDir lower byName (still P t) (depth + 1) dirPath).isSome := by
  induction depth generalizing dirPath with
  | zero =>
    have hnone : entities t (P.key dirPath) = [] := by
      refine List.eq_nil_iff_forall_not_mem.mpr fun e he => ?_
      obtain ⟨c, entry, hentry, -⟩ := mem_entities.mp he
      have hlen := h _ (t.mem_support _ (Option.isSome_iff_exists.mpr ⟨entry, hentry⟩))
      rw [List.length_append, P.length_key, List.length_singleton] at hlen
      omega
    rw [readDir]
    split_ifs
    · show ((loop lower _ dirPath (entities t (P.key dirPath))).map _).isSome = true
      rw [hnone]
      rfl
    · rfl
  | succ depth ih =>
    rw [readDir]
    split_ifs
    · have hloop : (loop lower (readDir lower byName (still P t) (depth + 1)) dirPath
          (entities t (P.key dirPath))).isSome := by
        refine loop_isSome_iff.mpr fun e _ _ _ => ih fun q hq => ?_
        have hlen := h q hq
        rw [List.length_append, List.length_singleton]
        omega
      simpa [still] using hloop
    · rfl

/-- **`readTree` lists what is shown on the way from the root.** -/
theorem listed_iff (hperm : ∀ l, (byName l).Perm l) :
    (∃ n, Listed lower byName (still P t) rootPath n ∧ n.path = p ∧ n.isDirectory = isDirectory) ↔
      ∃ rest, p = rootPath ++ rest ∧ ShownAt lower (still P t) rootPath rest isDirectory := by
  obtain ⟨bound, hbound⟩ : ∃ bound, ∀ q ∈ t.support, q.length ≤ rootPath.length + bound := by
    refine ⟨t.support.flatten.length, fun q hq => ?_⟩
    have hle := (List.sublist_flatten_of_mem hq).length_le
    omega
  obtain ⟨nodes, hread⟩ := Option.isSome_iff_exists.mp (@exists_readDir P t lower byName rootPath bound hbound)
  constructor
  · rintro ⟨n, hn, rfl, rfl⟩
    exact shownAt_of_among hperm hread ((listed_iff_among hread).mp hn)
  · rintro ⟨rest, rfl, hshown⟩
    obtain ⟨n, hn, hpath, hdir⟩ := among_of_shownAt hperm hread hshown
    exact ⟨n, (listed_iff_among hread).mpr hn, hpath, hdir⟩

end Tree

end Notely.Desktop.ListedNodes
