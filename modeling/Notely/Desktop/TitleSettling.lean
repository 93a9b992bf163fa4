import Notely.Desktop.ExplorerPointers
import Notely.Desktop.RenamedNodes

/-! # A note named after its title, and shown

`_TitleSync._sync` of `features/workspace/workspace_shell.dart` over the files: the note is saved, and
`renameForTitle` names it. The calls that run beside each other are in `Desktop/TitleSync`. The title goes through
`titleToFileName` and `_ensureMarkdown`, which leave the dot at its start, and `readTree` skips such names.

* `renamed_for_title`: the note that a sync renames is beside where it was, under its title.
* `sync_again`: the next sync with the same first line renames nothing.
* `settles_iff`: the tree shows the note afterwards exactly if the title does not start with a dot. -/

namespace Notely.Desktop.TitleSettling

open Notely.Lib.Strings Notely.Lib.Paths Notely.Lib.FileTree Notely.Desktop.Dart Notely.Desktop.EditorState
open Notely.Desktop.ReadTree Notely.Desktop.FileSystem Notely.Desktop.FileSafety Notely.Desktop.ListedNodes
open Notely.Desktop.RenamedNodes
open Notely.Desktop.Creation (Puttable writeFile)
open Notely.Desktop.ExplorerPointers (Explorer setRoot)
open Notely.Desktop.OpenPath (osChange_cases)
open Notely.Desktop.TitleSync (firstLine illegal stem titleToFileName withoutMarks)

/-! ### A sync -/

section Sync
variable (P : Platform)

/-- `saveNow`: the note is written, or stays as it is. -/
def save (path : Path) (content : Text) (w : World) : World :=
  match osChange (writeFile P path content) w with
  | .ok _ w | .error _ w => w

/-- `_sync`, of a note that is open at a path and edited. -/
def sync (eol : Eol) (s : Explorer) (path : Path) (text : Text) : Explorer × Option (Path × Path) :=
  match titleToFileName (firstLine text) with
  | none => (s, none)
  | some title =>
    if title = stem path then (s, none)
    else { s with world := save P path (applyEol eol text) s.world }.renameForTitle P path title

/-- **The tree shows the note under its new path, and further syncs with its first line rename nothing.** -/
structure Settles (byName : List FsNode → List FsNode) (eol : Eol) (s : Explorer) (newPath : Path) (text : Text) :
    Prop where
  listed : ∃ m, Listed P.lower byName (still P s.world.tree) s.rootPath m ∧ P.key m.path = P.key newPath ∧
    m.isMarkdown P.lower = true
  again : ∀ text', firstLine text' = firstLine text → (sync P eol s newPath text').2 = none ∧
    ∀ q, ((sync P eol s newPath text').1.world.tree.entry q).map Entry.name = (s.world.tree.entry q).map Entry.name

end Sync

/-! ### The title -/

section Title
variable {P : Platform} {line title : Text}

/-- A title that names a file. -/
theorem titleToFileName_some (h : titleToFileName line = some title) :
    trim title = title ∧ title ≠ [] ∧ '/' ∉ title := by
  unfold titleToFileName at h
  dsimp only at h
  split_ifs at h with hempty
  obtain rfl := Option.some.inj h
  refine ⟨trimBy_eq_self head?_trimBy getLast?_trimBy, hempty, fun hmem => ?_⟩
  have hkept := (List.mem_filter.mp (trimBy_sublist.subset hmem)).2
  have hillegal : illegal.contains '/' = true := by decide
  rw [hillegal] at hkept
  cases hkept

/-- Its file is beside the note, and hidden as the title is. -/
theorem dest_title (L : Lowers P.lower) (h : titleToFileName line = some title) (dir : Path) :
    join dir (P.ensureMarkdown title) = dir ++ [P.ensureMarkdown title] ∧
      (P.ensureMarkdown title).head? = title.head? := by
  obtain ⟨htrim, hne, hslash⟩ := titleToFileName_some h
  obtain ⟨c, cs, rfl⟩ := List.exists_cons_of_ne_nil hne
  obtain ⟨x, hx, hsuffix⟩ := ensureMarkdown_md L (c :: cs)
  have hdotMd : ∀ x ∈ dotMd, x.length = 3 := by decide
  have hlen := hsuffix.length_le
  rw [hdotMd x hx] at hlen
  have hcases : P.ensureMarkdown (c :: cs) = c :: cs ∨ P.ensureMarkdown (c :: cs) = c :: cs ++ ".md".toList := by
    unfold Platform.ensureMarkdown
    rw [htrim, if_neg hne]
    split_ifs
    · exact Or.inl rfl
    · exact Or.inr rfl
  have hnoSlash : '/' ∉ P.ensureMarkdown (c :: cs) := by
    rcases hcases with h | h
    · rwa [h]
    · rw [h, List.mem_append, not_or]
      exact ⟨hslash, by decide⟩
  have hproper : ∀ c ∈ [[], ['.'], ['.', '.']], ¬ 3 ≤ c.length := by decide
  have hnot : P.ensureMarkdown (c :: cs) ∉ [[], ['.'], ['.', '.']] := fun h => hproper _ h hlen
  simp only [List.mem_cons, List.not_mem_nil, or_false, not_or] at hnot
  constructor
  · rw [join_of_notMem dir hnoSlash, descend, if_neg (not_or.mpr ⟨hnot.1, hnot.2.1⟩), if_neg hnot.2.2]
  · rcases hcases with h | h
    · rw [h]
    · rw [h]
      rfl

end Title

/-! ### The save -/

section Save
variable {P : Platform} {path : Path} {content : Text} {w : World} {e : Entry Text}

/-- What a save does to the files: the note has its name, and another content or the same. -/
theorem save_entry (path : Path) (content : Text) (w : World) :
    (∀ q ≠ P.key path, (save P path content w).tree.entry q = w.tree.entry q) ∧
      ((save P path content w).tree.entry (P.key path) = w.tree.entry (P.key path) ∨
        (save P path content w).tree.entry (P.key path) =
          some ⟨((w.tree.entry (P.key path)).map Entry.name).getD (basename path), .file content⟩) := by
  unfold save
  rcases osChange_cases (writeFile P path content) w with ⟨t, -, ht, he⟩ | ⟨-, he⟩
  · unfold writeFile at ht
    split_ifs at ht with hput
    obtain rfl := Option.some.inj ht
    rw [he]
    refine ⟨fun q hq => ?_, Or.inr ?_⟩
    · show (if q = P.key path then _ else w.tree.entry q) = _
      rw [if_neg hq]
    · show (if P.key path = P.key path then _ else w.tree.entry (P.key path)) = _
      rw [if_pos rfl]
  · rw [he]
    exact ⟨fun _ _ => rfl, Or.inl rfl⟩

/-- A note that is saved is a file of its name. -/
theorem save_file (content : Text) (hentry : w.tree.entry (P.key path) = some e) (hfile : e.node ≠ .dir) :
    ∃ e', (save P path content w).tree.entry (P.key path) = some e' ∧ e'.name = e.name ∧ e'.node ≠ .dir := by
  rcases (save_entry path content w).2 with h | h
  · exact ⟨e, h.trans hentry, rfl, hfile⟩
  · refine ⟨_, h, ?_, by simp⟩
    rw [hentry]
    rfl

theorem save_names (content : Text) (hentry : w.tree.entry (P.key path) = some e) (q : Path) :
    ((save P path content w).tree.entry q).map Entry.name = (w.tree.entry q).map Entry.name := by
  obtain ⟨hother, hcases⟩ := @save_entry P path content w
  by_cases hq : q = P.key path
  · subst hq
    rcases hcases with h | h
    · rw [h]
    · rw [h, hentry]
      rfl
  · rw [hother q hq]

theorem filed_save (content : Text) (hfiled : Filed P w.tree) (hentry : w.tree.entry (P.key path) = some e) :
    Filed P (save P path content w).tree := by
  intro p c e' he'
  have hname := save_names content hentry (p ++ [c])
  rw [he', Option.map_some] at hname
  obtain ⟨e0, he0, heq⟩ := Option.map_eq_some_iff.mp hname.symm
  rw [← heq]
  exact hfiled p c e0 he0

end Save

/-! ### The rename -/

section Rename
variable {P : Platform} {byName : List FsNode → List FsNode} {eol : Eol} {s s' : Explorer} {path newPath : Path}
  {text title : Text} {e : Entry Text}

/-- A file that is renamed for its title. -/
theorem renamed_for_title (L : Lowers P.lower) (htitle : titleToFileName (firstLine text) = some title)
    (hentry : s.world.tree.entry (P.key path) = some e) (hfile : e.node ≠ .dir)
    (h : sync P eol s path text = (s', some (path, newPath))) :
    newPath = dirname path ++ [P.ensureMarkdown title] ∧ s'.rootPath = s.rootPath ∧
      (save P path (applyEol eol text) s.world).tree.DirAt (P.key (dirname path)) ∧
      s'.world.tree.entry = DirTree.relocated (save P path (applyEol eol text) s.world).tree.entry (P.key path)
        (P.key newPath) (basename newPath) ∧
      ∃ e', s'.world.tree.entry (P.key newPath) = some e' ∧ e'.node ≠ .dir := by
  obtain ⟨e1, hentry1, -, hfile1⟩ := save_file (applyEol eol text) hentry hfile
  have hnotDir : ¬ (save P path (applyEol eol text) s.world).tree.DirAt (P.key path) :=
    fun hdir => not_prefix_of_file hentry1 hfile1 hdir List.prefix_rfl
  unfold sync at h
  rw [htitle] at h
  dsimp only at h
  split_ifs at h with hstem
  · cases congrArg Prod.snd h
  · unfold Explorer.renameForTitle at h
    dsimp only at h
    cases hrename : FileSystem.rename P path title (save P path (applyEol eol text) s.world) with
    | error err w =>
      rw [hrename] at h
      cases congrArg Prod.snd h
    | ok p w =>
      rw [hrename] at h
      dsimp only at h
      split_ifs at h with hsame
      · cases congrArg Prod.snd h
      · obtain ⟨rfl, hpaths⟩ := Prod.mk.inj h
        obtain rfl : p = newPath := congrArg Prod.snd (Option.some.inj hpaths)
        rcases rename_ok_cases hrename with ⟨rfl, -⟩ | ⟨⟨-, hparent, -⟩, hdest, hmoved⟩
        · exact absurd (by simp [Platform.equals]) hsame
        · have hbeside : p = dirname path ++ [P.ensureMarkdown title] := by
            rw [hdest, ← (dest_title L htitle (dirname path)).1, Request.dest, Platform.renameName]
            simp [hnotDir]
          refine ⟨hbeside, rfl, ?_, hmoved, ⟨basename p, e1.node⟩, ?_, hfile1⟩
          · rwa [← hdest, hbeside, P.key_concat, List.dropLast_concat] at hparent
          · show w.tree.entry (P.key p) = _
            rw [hmoved, DirTree.relocated, if_pos List.prefix_rfl, List.drop_length, List.append_nil, hentry1,
              Option.map_some, if_pos rfl]

/-- **The next sync with the same first line renames nothing**: the note is named after it. -/
theorem sync_again (L : Lowers P.lower) (htitle : titleToFileName (firstLine text) = some title)
    (hpath : newPath = dirname path ++ [P.ensureMarkdown title])
    (hentry : s.world.tree.entry (P.key newPath) = some e) (hfile : e.node ≠ .dir) :
    (sync P eol s newPath text).2 = none ∧ ∀ q,
      ((sync P eol s newPath text).1.world.tree.entry q).map Entry.name = (s.world.tree.entry q).map Entry.name := by
  obtain ⟨e1, hentry1, -, hfile1⟩ := save_file (applyEol eol text) hentry hfile
  have hnotDir : ¬ (save P newPath (applyEol eol text) s.world).tree.DirAt (P.key newPath) :=
    fun hdir => not_prefix_of_file hentry1 hfile1 hdir List.prefix_rfl
  have hdest : (Request.rename newPath title).dest P (save P newPath (applyEol eol text) s.world).tree = newPath := by
    have hdir : dirname newPath = dirname path := by simp [hpath, dirname]
    rw [Request.dest, Platform.renameName]
    simp only [hnotDir, decide_false, Bool.false_eq_true, if_false]
    rw [(dest_title L htitle (dirname newPath)).1, hdir, ← hpath]
  unfold sync
  rw [htitle]
  dsimp only
  split_ifs with hstem
  · exact ⟨rfl, fun _ => rfl⟩
  · unfold Explorer.renameForTitle
    dsimp only
    rcases rename_checks (save P newPath (applyEol eol text) s.world) newPath title hdest.symm with
      ⟨err, he, -⟩ | ⟨he, -⟩ | ⟨-, -, hdiffers, -⟩
    · rw [he]
      exact ⟨rfl, save_names _ hentry⟩
    · rw [he]
      dsimp only
      rw [if_pos (by simp [Platform.equals])]
      exact ⟨rfl, save_names _ hentry⟩
    · simp [Platform.equals] at hdiffers

/-- A note that is listed is a file. -/
theorem file_of_note {t : DirTree Text} {rootPath : Path} {n : FsNode} (hperm : ∀ l, (byName l).Perm l)
    (hfiled : Filed P t) (hn : Listed P.lower byName (still P t) rootPath n) (hnote : n.isMarkdown P.lower = true) :
    ∃ e, t.entry (P.key n.path) = some e ∧ e.node ≠ .dir := by
  obtain ⟨-, -, -, e, hentry, -, hnode⟩ := entry_of_listed hperm hfiled hn
  exact ⟨e, hentry, fun hdir => Bool.false_ne_true ((file_of_isMarkdown hnote).symm.trans (hnode.mp hdir))⟩

/-- **The note a sync renames is listed exactly if its title does not start with a dot.** -/
theorem listed_titled_iff {n : FsNode} (L : Lowers P.lower) (hperm : ∀ l, (byName l).Perm l)
    (hfiled : Filed P s.world.tree) (hn : Listed P.lower byName (still P s.world.tree) s.rootPath n)
    (hnote : n.isMarkdown P.lower = true) (htitle : titleToFileName (firstLine text) = some title)
    (h : sync P eol s n.path text = (s', some (n.path, newPath))) :
    (∃ m, Listed P.lower byName (still P s'.world.tree) s'.rootPath m ∧ P.key m.path = P.key newPath ∧
      m.isMarkdown P.lower = true) ↔ title.head? ≠ some '.' := by
  obtain ⟨hne, ⟨-, rest, hrest, hshown⟩, -⟩ := entry_of_listed hperm hfiled hn
  obtain ⟨e, hentry, hfile⟩ := file_of_note hperm hfiled hn hnote
  obtain ⟨hpath, hroot, hparent, hmoved, -⟩ := renamed_for_title L htitle hentry hfile h
  obtain ⟨e1, hentry1, -, hfile1⟩ := save_file (applyEol eol text) hentry hfile
  have hfiled1 := filed_save (applyEol eol text) hfiled hentry
  have hdir : dirname newPath = dirname n.path := by simp [hpath, dirname]
  have hbase : basename newPath = P.ensureMarkdown title := by simp [hpath, basename]
  obtain ⟨x, hx, hsuffix⟩ := ensureMarkdown_md L title
  rw [← hbase] at hsuffix
  have hiff : (∃ m, Listed P.lower byName (still P s'.world.tree) s.rootPath m ∧ P.key m.path = P.key newPath ∧
      m.isDirectory = false) ↔ ShownIn P (save P n.path (applyEol eol text) s.world).tree s.rootPath newPath :=
    listed_renamed_iff L hperm hfiled1 hentry1 hfile1 hmoved (by simp [hpath]) (by rwa [hdir]) hx hsuffix
  have hkind : ∀ m, Listed P.lower byName (still P s'.world.tree) s.rootPath m → P.key m.path = P.key newPath →
      (m.isMarkdown P.lower = true ↔ m.isDirectory = false) := by
    intro m hm hkey
    have hname := basename_of_listed hperm hfiled1 hmoved hm hkey
    exact ⟨file_of_isMarkdown, fun hmfile => (kind_of_md L hmfile hx (hname ▸ hsuffix)).1⟩
  -- the folder is listed as before: the save is of another entry
  have hfolder : ShownAt P.lower (still P (save P n.path (applyEol eol text) s.world).tree) s.rootPath rest true ↔
      ShownAt P.lower (still P s.world.tree) s.rootPath rest true := by
    refine shownAt_congr hfiled hfiled1 fun q hq => (save_entry n.path _ s.world).1 q ?_
    rintro rfl
    have hlen := hq.length_le
    have hpos := List.length_pos_of_ne_nil hne
    rw [hrest, P.length_key, P.length_key, dirname, List.length_dropLast] at hlen
    omega
  have hshownIn : ShownIn P (save P n.path (applyEol eol text) s.world).tree s.rootPath newPath ↔
      title.head? ≠ some '.' := by
    unfold ShownIn
    rw [hbase, (dest_title L htitle []).2, hdir]
    exact and_iff_left ⟨rest, hrest, hshown.imp id hfolder.mpr⟩
  rw [hroot, ← hshownIn, ← hiff]
  exact exists_congr fun m => and_congr_right fun hm => and_congr_right fun hkey => hkind m hm hkey

/-- **A sync settles exactly if the title does not start with a dot.** -/
theorem settles_iff {n : FsNode} (L : Lowers P.lower) (hperm : ∀ l, (byName l).Perm l) (hfiled : Filed P s.world.tree)
    (hn : Listed P.lower byName (still P s.world.tree) s.rootPath n) (hnote : n.isMarkdown P.lower = true)
    (htitle : titleToFileName (firstLine text) = some title)
    (h : sync P eol s n.path text = (s', some (n.path, newPath))) :
    Settles P byName eol s' newPath text ↔ title.head? ≠ some '.' := by
  rw [← listed_titled_iff L hperm hfiled hn hnote htitle h]
  obtain ⟨e, hentry, hfile⟩ := file_of_note hperm hfiled hn hnote
  obtain ⟨hpath, -, -, -, e', hentry', hfile'⟩ := renamed_for_title L htitle hentry hfile h
  have hagain : ∀ text', firstLine text' = firstLine text → (sync P eol s' newPath text').2 = none ∧ ∀ q,
      ((sync P eol s' newPath text').1.world.tree.entry q).map Entry.name = (s'.world.tree.entry q).map Entry.name :=
    fun text' htext => sync_again L (htext ▸ htitle) hpath hentry' hfile'
  exact ⟨Settles.listed, fun hlisted => ⟨hlisted, hagain⟩⟩

end Rename

/-- A note and an image, in the root. -/
def atRoot : Explorer := setRoot (settled noteAndImage) []

theorem listed_noteAtRoot : Listed posix.lower id (still posix atRoot.world.tree) atRoot.rootPath
    (FsNode.mk ["a.md".toList] false []) :=
  ⟨2, _, rfl, .here List.mem_cons_self⟩

/-- The note gets a title. -/
theorem settles_plan : Settles posix id .lf (sync posix .lf atRoot ["a.md".toList] "# Plan\n".toList).1
    ["Plan.md".toList] "# Plan\n".toList := by
  have htitle : titleToFileName (firstLine "# Plan\n".toList) = some "Plan".toList := by decide
  have hsync : sync posix .lf atRoot ["a.md".toList] "# Plan\n".toList =
      ((sync posix .lf atRoot ["a.md".toList] "# Plan\n".toList).1, some (["a.md".toList], ["Plan.md".toList])) :=
    Prod.ext rfl (by decide)
  exact (settles_iff lowers_lowerAscii .refl filed_noteAndImage listed_noteAtRoot (by decide) htitle hsync).mpr
    (by decide)

/-- Its title starts with a dot. -/
theorem not_settles : ¬ ∀ (P : Platform) (byName : List FsNode → List FsNode) (eol : Eol) (s s' : Explorer) (n : FsNode)
    (newPath : Path) (text title : Text), Lowers P.lower → (∀ l, (byName l).Perm l) → Filed P s.world.tree →
      Listed P.lower byName (still P s.world.tree) s.rootPath n → n.isMarkdown P.lower = true →
        titleToFileName (firstLine text) = some title → sync P eol s n.path text = (s', some (n.path, newPath)) →
          Settles P byName eol s' newPath text := by
  intro h
  have htitle : titleToFileName (firstLine ".plan\n".toList) = some ".plan".toList := by decide
  have hsync : sync posix .lf atRoot ["a.md".toList] ".plan\n".toList =
      ((sync posix .lf atRoot ["a.md".toList] ".plan\n".toList).1, some (["a.md".toList], [".plan.md".toList])) :=
    Prod.ext rfl (by decide)
  have hsettles := h posix id .lf atRoot _ (FsNode.mk ["a.md".toList] false []) _ _ _ lowers_lowerAscii .refl
    filed_noteAndImage listed_noteAtRoot (by decide) htitle hsync
  exact (listed_titled_iff lowers_lowerAscii .refl filed_noteAndImage listed_noteAtRoot (by decide) htitle hsync).mp
    hsettles.listed rfl

end Notely.Desktop.TitleSettling
