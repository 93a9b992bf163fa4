import Notely.Desktop.ListedNodes
import Notely.Desktop.OpenPath

/-! # Renaming what the tree shows

`rename` of `Desktop/FileSystem` for an entry that `readTree` lists: under the name it is shown with, and under any
other one. An image gets `.md` as every file does; a name that starts with a dot takes the entry out of the tree.

* `renameEntity_entries`: a rename moves the entries, with their names.
* `unchanged_iff`: when `rename` changes nothing.
* `lawful_iff`: when the name shown changes nothing, and another one keeps the kind. -/

namespace Notely.Desktop.RenamedNodes

open Notely.Lib.Strings Notely.Lib.Paths Notely.Lib.FileTree Notely.Desktop.Dart Notely.Desktop.ReadTree
open Notely.Desktop.FileSystem Notely.Desktop.FileSafety Notely.Desktop.ListedNodes
open Notely.Desktop.OpenPath (entityRename_cases renameEntity_direct_run)

/-! ### Lower case -/

/-- `.md`, in whatever case. -/
def dotMd : List Text := [".md".toList, ".mD".toList, ".Md".toList, ".MD".toList]

/-- What is relied on of `toLowerCase`: it lowers the English letters, and no other letter becomes one of `.md`. -/
structure Lowers (lower : Text → Text) : Prop where
  ascii : ∀ s, (∀ c ∈ s, c.toNat < 128) → lower s = lowerAscii s
  md : ∀ s, endsWith (lower s) ".md".toList = true ↔ ∃ e ∈ dotMd, e <:+ s

theorem toLower_cases {c d : Char} (h : c.toLower = d) : c = d ∨ 65 ≤ c.toNat ∧ c.toNat + 32 = d.toNat := by
  unfold Char.toLower at h
  split_ifs at h with hc
  · obtain ⟨hlow, hhigh⟩ := hc
    have hlow : 65 ≤ c.val.toNat := hlow
    have hhigh : c.val.toNat ≤ 90 := hhigh
    have hval : (c.val + 32).toNat = c.val.toNat + 32 := by
      rw [UInt32.toNat_add]
      exact Nat.mod_eq_of_lt (by have : (32 : UInt32).toNat = 32 := rfl; omega)
    refine Or.inr ⟨hlow, ?_⟩
    rw [← h]
    exact hval.symm
  · exact Or.inl h

theorem mem_dotMd_of_lowerAscii {e : Text} (h : lowerAscii e = ".md".toList) : e ∈ dotMd := by
  have h : e.map Char.toLower = ['.', 'm', 'd'] := h
  obtain ⟨a, e, rfl, ha, he⟩ := List.map_eq_cons_iff.mp h
  obtain ⟨m, e, rfl, hm, he⟩ := List.map_eq_cons_iff.mp he
  obtain ⟨d, e, rfl, hd, he⟩ := List.map_eq_cons_iff.mp he
  obtain rfl := List.map_eq_nil_iff.mp he
  have hdot : a = '.' := by
    refine (toLower_cases ha).resolve_right fun h => ?_
    have : '.'.toNat = 46 := rfl
    omega
  have hm : m = 'm' ∨ m = 'M' := (toLower_cases hm).imp id fun h => Char.toNat_inj.mp (by
    have h1 : 'm'.toNat = 109 := rfl
    have h2 : 'M'.toNat = 77 := rfl
    omega)
  have hd : d = 'd' ∨ d = 'D' := (toLower_cases hd).imp id fun h => Char.toNat_inj.mp (by
    have h1 : 'd'.toNat = 100 := rfl
    have h2 : 'D'.toNat = 68 := rfl
    omega)
  rw [hdot]
  rcases hm with rfl | rfl <;> rcases hd with rfl | rfl <;> decide

theorem lowers_lowerAscii : Lowers lowerAscii where
  ascii _ _ := rfl
  md s := by
    unfold endsWith lowerAscii
    rw [decide_eq_true_iff, List.suffix_map_iff]
    constructor
    · rintro ⟨e, he, hmd⟩
      exact ⟨e, mem_dotMd_of_lowerAscii hmd.symm, he⟩
    · rintro ⟨e, hmem, he⟩
      have hall : ∀ e ∈ dotMd, ".md".toList = e.map Char.toLower := by decide
      exact ⟨e, he, hall e hmem⟩

section Names
variable {lower : Text → Text} {e name : Text}

theorem file_of_isMarkdown {n : FsNode} (h : n.isMarkdown lower = true) : n.isDirectory = false := by
  simpa using (Bool.and_eq_true_iff.mp h).1

theorem file_of_isImage {n : FsNode} (h : n.isImage lower = true) : n.isDirectory = false := by
  simpa using (Bool.and_eq_true_iff.mp h).1

theorem noteOrImage_of_md (L : Lowers lower) (hmd : e ∈ dotMd) (he : e <:+ name) : noteOrImage lower name = true := by
  unfold noteOrImage
  rw [(L.md name).mpr ⟨e, hmd, he⟩, Bool.true_or]

/-- The name of a note is no name of an image. -/
theorem not_image_of_md (L : Lowers lower) (hmd : e ∈ dotMd) (he : e <:+ name) :
    FsNode.imageExtensions.contains (lower (FsNode.extension name)) = false := by
  have hno : ∀ x ∈ [] :: dotMd.map List.tail,
      (x.all fun c => c.toNat < 128) = true ∧ FsNode.imageExtensions.contains (lowerAscii x) = false := by decide
  have hext : FsNode.extension name ∈ [] :: dotMd.map List.tail := by
    obtain ⟨s, rfl⟩ := he
    have hafter : ∀ e ∈ dotMd, ((s ++ e).reverse.takeWhile (· ≠ '.')).reverse = e.tail := by
      intro e he
      have hsplit : e.reverse = e.tail.reverse ++ ['.'] ∧ '.' ∉ e.tail.reverse := by
        revert e
        decide
      have hnoDot : ∀ c ∈ e.tail.reverse, decide (c ≠ '.') = true :=
        fun c hc => decide_eq_true fun hdot => hsplit.2 (hdot ▸ hc)
      rw [List.reverse_append, hsplit.1, List.append_assoc, List.takeWhile_append_of_pos hnoDot]
      simp
    unfold FsNode.extension
    rw [hafter e hmd]
    dsimp only
    split_ifs
    · exact List.mem_cons_of_mem _ (List.mem_map_of_mem hmd)
    · exact List.mem_cons_self
  rw [L.ascii _ (by simpa using (hno _ hext).1)]
  exact (hno _ hext).2

/-- `_ensureMarkdown` gives the name of a note. -/
theorem ensureMarkdown_md {P : Platform} (L : Lowers P.lower) (rawName : Text) :
    ∃ e ∈ dotMd, e <:+ P.ensureMarkdown rawName := by
  unfold Platform.ensureMarkdown
  split_ifs with hempty hmd
  · exact ⟨".md".toList, by decide, by decide⟩
  · exact (L.md _).mp hmd
  · exact ⟨".md".toList, by decide, List.suffix_append _ _⟩

end Names

/-! ### The entries after a rename -/

section Entries
variable {P : Platform} {t t' : DirTree Text} {w w' : World} {isDir caseOnly : Bool} {source dest path newPath : Path}
  {newName : Text}

/-- **A rename that is made moves the entries**, and the one renamed is shown under its new name. -/
theorem renameEntity_entries (hlen : caseOnly = true → source.length = dest.length)
    (h : renameEntity P isDir source dest caseOnly w = .ok newPath w') :
    newPath = dest ∧ w.tree.DirAt (P.key dest).dropLast ∧
      (P.key source = P.key dest ∨ MakesWay P w.tree isDir (P.key dest)) ∧
      w'.tree.entry = DirTree.relocated w.tree.entry (P.key source) (P.key dest) (basename dest) := by
  cases caseOnly with
  | false =>
    rw [renameEntity_direct_run] at h
    rcases entityRename_cases P isDir source dest w with ⟨hr, -, he⟩ | ⟨-, he⟩
    · rw [he] at h
      obtain ⟨rfl, rfl⟩ := EStateM.Result.ok.inj h
      exact ⟨rfl, hr.parent, hr.way, rfl⟩
    · rw [he] at h
      cases h
  | true =>
    rw [renameEntity_caseOnly] at h
    rcases entityRename_cases P isDir source (tempPath dest (tempIndex P w.tree dest)) w with ⟨h1, -, he⟩ | ⟨-, he⟩
    · rw [he] at h
      dsimp only at h
      rcases entityRename_cases P isDir (tempPath dest (tempIndex P w.tree dest)) dest ⟨h1.tree, w.faults.tail⟩ with
        ⟨h2, -, he⟩ | ⟨-, he⟩
      · rw [he] at h
        obtain ⟨rfl, rfl⟩ := EStateM.Result.ok.inj h
        have hlen := hlen rfl
        refine ⟨rfl, ((renamable_temp hlen).mp h1).2, (renamable_fromTemp hlen h1).mp h2, funext fun q => ?_⟩
        refine DirTree.relocated_relocated _ _ (fun q hq => ?_) q
        have hnone := none_below_temp hq
        rw [DirTree.node, Option.map_eq_none_iff] at hnone
        exact hnone
      · rw [he] at h
        cases h
    · rw [he] at h
      cases h

theorem basename_fold {c : Text} {p : Path} (h : P.key dest = p ++ [c]) : P.fold (basename dest) = c := by
  induction dest using List.reverseRecOn with
  | nil => simp [Platform.key] at h
  | append_singleton p' c' =>
    rw [P.key_concat] at h
    have hlast := (List.append_inj' h rfl).2
    simpa [basename] using hlast

/-- The entries stay filed under their names. -/
theorem filed_relocated (hfiled : Filed P t)
    (h : t'.entry = DirTree.relocated t.entry (P.key source) (P.key dest) (basename dest)) : Filed P t' := by
  intro p c e he
  rw [h, DirTree.relocated] at he
  by_cases hdest : P.key dest <+: p ++ [c]
  · rw [if_pos hdest] at he
    obtain ⟨e', he', rfl⟩ := Option.map_eq_some_iff.mp he
    by_cases heq : p ++ [c] = P.key dest
    · simpa [heq] using basename_fold heq.symm
    · obtain ⟨r, rfl⟩ := (List.prefix_concat_iff.mp hdest).resolve_left (Ne.symm heq)
      rw [List.append_assoc, List.drop_left, ← List.append_assoc] at he'
      simpa [heq] using hfiled _ _ _ he'
  · rw [if_neg hdest] at he
    split_ifs at he
    exact hfiled _ _ _ he

/-- An entry that is renamed is not at its path under its name any more. -/
theorem entry_relocated_ne {e : Entry Text} (hentry : t.entry (P.key source) = some e)
    (hname : e.name = basename source)
    (hdest : P.key dest <+: P.key source → P.key dest = P.key source ∧ basename dest ≠ basename source) :
    DirTree.relocated t.entry (P.key source) (P.key dest) (basename dest) (P.key source) ≠ t.entry (P.key source) := by
  intro h
  unfold DirTree.relocated at h
  by_cases hin : P.key dest <+: P.key source
  · obtain ⟨hsame, hne⟩ := hdest hin
    rw [if_pos hin, hentry] at h
    obtain ⟨e', -, heq⟩ := Option.map_eq_some_iff.mp h
    rw [if_pos hsame.symm] at heq
    have hnew : basename dest = e.name := congrArg Entry.name heq
    exact hne (hnew.trans hname)
  · rw [if_neg hin, if_pos List.prefix_rfl, hentry] at h
    cases h

end Entries

/-! ### The name that changes nothing -/

/-- The operation leaves every entry as it was. -/
def Unchanged (t : DirTree Text) (result : EStateM.Result FsError World Path) : Prop :=
  ∀ q, (after result).entry q = t.entry q

/-- `rename` rejects the name, or makes of it the path that the entry has. -/
def KeepsName (P : Platform) (t : DirTree Text) (path : Path) (newName : Text) : Prop :=
  let dest := (Request.rename path newName).dest P t
  P.renameName (t.DirAt (P.key path)) newName = [] ∨ P.equals dest path = true ∨
    P.isCaseOnlyRename path dest = false ∧ t.Exists (P.key dest)

section Unchanged
variable {P : Platform} {t : DirTree Text} {isDir : Bool} {path dest : Path} {name newName : Text} {e : Entry Text}

theorem notMem_renameName (h : '/' ∉ newName) : '/' ∉ P.renameName isDir newName := by
  have htrim : '/' ∉ trim newName := fun hmem => h (trimBy_sublist.subset hmem)
  unfold Platform.renameName Platform.ensureMarkdown
  split_ifs
  · exact htrim
  · decide
  · exact htrim
  · rw [List.mem_append, not_or]
    exact ⟨htrim, by decide⟩

/-- A name without a slash stands for an entry of the directory, or for a directory that exists. -/
theorem join_cases {dir : Path} (hslash : '/' ∉ name) (hdir : t.DirAt (P.key dir)) :
    join dir name = dir ++ [name] ∨ t.Exists (P.key (join dir name)) ∧ (join dir name).length ≤ dir.length := by
  have hex := DirTree.exists_of_dirAt hdir
  rw [join_of_notMem dir hslash]
  unfold descend
  split_ifs
  · exact Or.inr ⟨hex, le_rfl⟩
  · refine Or.inr ⟨DirTree.exists_of_prefix ((List.dropLast_prefix dir).map P.fold) hex, ?_⟩
    rw [List.length_dropLast]
    exact Nat.sub_le _ _
  · exact Or.inl rfl

/-- A direct rename to a free name beside the entry is made. -/
theorem changed_direct (hsome : (t.node (P.key path)).isSome) (hentry : t.entry (P.key path) = some e)
    (hname : e.name = basename path) (hparent : t.DirAt (P.key (dirname path))) (hne : path ≠ [])
    (hfree : ¬ t.Exists (P.key (dirname path ++ [name]))) :
    ¬ Unchanged t (renameEntity P (t.DirAt (P.key path)) path (dirname path ++ [name]) false (settled t)) := by
  have hlen : (P.key path).length = (P.key (dirname path ++ [name])).length := by
    have hpos := List.length_pos_of_ne_nil hne
    simp only [Platform.length_key, List.length_append, dirname, List.length_dropLast, List.length_singleton]
    omega
  have hnone : t.node (P.key (dirname path ++ [name])) = none :=
    Option.not_isSome_iff_eq_none.mp fun h => hfree (Or.inr h)
  have hr : Renamable P t (t.DirAt (P.key path)) path (dirname path ++ [name]) := by
    refine ⟨kindIs_of_isSome hsome, by simp [P.key_concat], ?_, fun h => h.eq_of_length hlen, Or.inr ?_⟩
    · rw [P.key_concat, List.dropLast_concat]
      exact hparent
    · simp [MakesWay, hnone]
  rcases renameEntity_direct P t (t.DirAt (P.key path)) path (dirname path ++ [name]) with ⟨hr', he⟩ | ⟨hnot, -⟩
  · rw [he]
    intro hunchanged
    refine entry_relocated_ne hentry hname (fun hin => ?_) (hunchanged (P.key path))
    exact absurd (DirTree.exists_of_prefix hin (Or.inr hsome)) hfree
  · exact absurd hr hnot

/-- A change of case is made, or leaves the entry under its temporary name. -/
theorem changed_caseOnly (hsome : (t.node (P.key path)).isSome) (hentry : t.entry (P.key path) = some e)
    (hname : e.name = basename path) (hparent : t.DirAt (P.key (dirname path))) (hne : path ≠ [])
    (hdiffers : name ≠ basename path) :
    ¬ Unchanged t (renameEntity P (t.DirAt (P.key path)) path (dirname path ++ [name]) true (settled t)) := by
  have hlen : path.length = (dirname path ++ [name]).length := by
    have hpos := List.length_pos_of_ne_nil hne
    simp only [List.length_append, dirname, List.length_dropLast, List.length_singleton]
    omega
  intro hunchanged
  rcases renameEntity_viaTemp P t (t.DirAt (P.key path)) hlen with
    ⟨t', he, -⟩ | ⟨t', he, -, -, -, hgone, -⟩ | ⟨-, hnot⟩
  · have hmoved := (renameEntity_entries (fun _ => hlen) he).2.2.2
    rw [he] at hunchanged
    have hsame := hunchanged (P.key path)
    rw [show (after (.ok (dirname path ++ [name]) (settled t') : EStateM.Result FsError World Path)).entry =
      (settled t').tree.entry from rfl, hmoved] at hsame
    refine entry_relocated_ne hentry hname (fun hin => ⟨hin.eq_of_length ?_, ?_⟩) hsame
    · rw [P.length_key, P.length_key, hlen]
    · simpa [basename] using hdiffers
  · rw [he] at hunchanged
    have hsame := hunchanged (P.key path)
    rw [← DirTree.entry_isSome, ← hsame, DirTree.entry_isSome] at hsome
    rw [show (after (.error .os (settled t') : EStateM.Result FsError World Path)) = t' from rfl, hgone] at hsome
    cases hsome
  · refine hnot ⟨kindIs_of_isSome hsome, ?_⟩
    rw [P.key_concat, List.dropLast_concat]
    exact hparent

/-- **`rename` changes nothing exactly if it rejects the name or the entry has it.** -/
theorem unchanged_iff (hslash : '/' ∉ newName) (hentry : t.entry (P.key path) = some e)
    (hname : e.name = basename path) :
    Unchanged t (FileSystem.rename P path newName (settled t)) ↔ KeepsName P t path newName := by
  have hsome : (t.node (P.key path)).isSome := DirTree.entry_isSome.mp (by simp [hentry])
  have hne : path ≠ [] := by
    rintro rfl
    simp [Platform.key] at hsome
  have hparent : t.DirAt (P.key (dirname path)) := by
    rw [← P.key_dirname]
    exact dirAt_dropLast t hsome
  have hpath := dirname_basename hne
  unfold KeepsName
  dsimp only
  generalize hdest : (Request.rename path newName).dest P t = dest
  have hcases := @join_cases P t _ _ (@notMem_renameName P (t.DirAt (P.key path)) newName hslash) hparent
  rw [show join (dirname path) (P.renameName (t.DirAt (P.key path)) newName) = dest from hdest] at hcases
  rcases rename_checks (settled t) path newName hdest.symm with
    ⟨err, he, hwhy⟩ | ⟨he, heq⟩ | ⟨he, hnonempty, hdiffers, hfree⟩
  · rw [he]
    exact iff_of_true (fun _ => rfl) (hwhy.imp_right Or.inr)
  · rw [he]
    exact iff_of_true (fun _ => rfl) (Or.inr (Or.inl heq))
  · have hkeeps : ¬ (P.renameName (t.DirAt (P.key path)) newName = [] ∨ P.equals dest path = true ∨
        P.isCaseOnlyRename path dest = false ∧ t.Exists (P.key dest)) := by
      rintro (h | h | ⟨h1, h2⟩)
      · exact hnonempty h
      · exact Bool.false_ne_true (hdiffers.symm.trans h)
      · exact hfree h1 h2
    refine iff_of_false ?_ hkeeps
    have hlength : path.length = (dirname path).length + 1 := by
      have hpos := List.length_pos_of_ne_nil hne
      simp only [dirname, List.length_dropLast]
      omega
    rw [he]
    cases hcase : P.isCaseOnlyRename path dest with
    | false =>
      have hbeside := hcases.resolve_right fun h => hfree hcase h.1
      subst hbeside
      exact changed_direct hsome hentry hname hparent hne (hfree hcase)
    | true =>
      have hlen := P.length_of_caseOnly hcase
      have hbeside := hcases.resolve_right fun h => by omega
      subst hbeside
      refine changed_caseOnly hsome hentry hname hparent hne fun hsame => ?_
      rw [hsame, hpath] at hdiffers
      simp [Platform.equals] at hdiffers

end Unchanged

/-! ### What is listed under the new name -/

/-- The path is that of an entry which the tree shows: its folder is shown, or is the root, and its name is not
hidden. -/
def ShownIn (P : Platform) (t : DirTree Text) (rootPath path : Path) : Prop :=
  (basename path).head? ≠ some '.' ∧ ∃ rest, P.key (rootPath ++ rest) = P.key (dirname path) ∧
    (rest = [] ∨ ShownAt P.lower (still P t) rootPath rest true)

section Listed
variable {P : Platform} {byName : List FsNode → List FsNode} {t t' : DirTree Text} {rootPath source dest : Path}
  {n : FsNode} {e : Entry Text}

/-- A node that is listed is an entry, of its name and kind. -/
theorem entry_of_listed (hperm : ∀ l, (byName l).Perm l) (hfiled : Filed P t)
    (hn : Listed P.lower byName (still P t) rootPath n) : n.path ≠ [] ∧ ShownIn P t rootPath n.path ∧
      (n.isDirectory = false → noteOrImage P.lower (basename n.path) = true) ∧
      ∃ e, t.entry (P.key n.path) = some e ∧ e.name = basename n.path ∧ (e.node = .dir ↔ n.isDirectory = true) := by
  obtain ⟨rest, hpath, hshown⟩ := (listed_iff hperm).mp ⟨n, hn, rfl, rfl⟩
  induction rest using List.reverseRecOn with
  | nil => cases hshown
  | append_singleton rest name =>
    obtain ⟨hfolder, hshows⟩ := shownAt_concat.mp hshown
    obtain ⟨hvisible, hnote, e, hentry, hname, hnode⟩ := (shows_still hfiled).mp hshows
    have hpath : n.path = rootPath ++ rest ++ [name] := by rw [hpath, List.append_assoc]
    have hbase : basename n.path = name := by simp [hpath, basename]
    have hdir : dirname n.path = rootPath ++ rest := by simp [hpath, dirname]
    refine ⟨by simp [hpath], ⟨by rwa [hbase], rest, by rw [hdir], hfolder⟩, by rwa [hbase], e, ?_, ?_, hnode⟩
    · rw [hpath]
      exact hentry
    · rw [hbase]
      exact hname

/-- A file is not on the way to a directory. -/
theorem not_prefix_of_file {p q : Path} (hentry : t.entry p = some e) (hfile : e.node ≠ .dir) (hdir : t.DirAt q) :
    ¬ p <+: q :=
  fun hin => hfile ((DirTree.dirAt_iff_of_entry hentry).mp (DirTree.dirAt_of_prefix hin hdir))

/-- **A note that is renamed is listed exactly if its new path is one the tree shows.** -/
theorem listed_renamed_iff (L : Lowers P.lower) (hperm : ∀ l, (byName l).Perm l) (hfiled : Filed P t)
    (hentry : t.entry (P.key source) = some e) (hfile : e.node ≠ .dir)
    (hmoved : t'.entry = DirTree.relocated t.entry (P.key source) (P.key dest) (basename dest)) (hne : dest ≠ [])
    (hparent : t.DirAt (P.key (dirname dest))) {x : Text} (hmd : x ∈ dotMd) (hx : x <:+ basename dest) :
    (∃ m, Listed P.lower byName (still P t') rootPath m ∧ P.key m.path = P.key dest ∧ m.isDirectory = false) ↔
      ShownIn P t rootPath dest := by
  have hfiled' := filed_relocated hfiled hmoved
  have hkey : P.key dest = P.key (dirname dest) ++ [P.fold (basename dest)] := by
    rw [← P.key_concat, dirname_basename hne]
  have hsource := not_prefix_of_file hentry hfile hparent
  have hkept : ∀ q, q <+: P.key (dirname dest) → t'.entry q = t.entry q := by
    intro q hq
    rw [hmoved, DirTree.relocated, if_neg, if_neg]
    · exact fun h => hsource (h.trans hq)
    · intro h
      have hlen := (h.trans hq).length_le
      rw [hkey, List.length_append, List.length_singleton] at hlen
      omega
  have hnew : t'.entry (P.key dest) = some ⟨basename dest, e.node⟩ := by
    rw [hmoved, DirTree.relocated, if_pos List.prefix_rfl, List.drop_length, List.append_nil, hentry, Option.map_some,
      if_pos rfl]
  have hfolder : ∀ rest, P.key (rootPath ++ rest) = P.key (dirname dest) →
      (ShownAt P.lower (still P t') rootPath rest true ↔ ShownAt P.lower (still P t) rootPath rest true) :=
    fun rest hrest => shownAt_congr hfiled hfiled' fun q hq => hkept q (hrest ▸ hq)
  constructor
  · rintro ⟨m, hm, hpath, hdir⟩
    obtain ⟨hne', ⟨hvisible, rest, hrest, hshown⟩, -, e', he', hname, -⟩ := entry_of_listed hperm hfiled' hm
    rw [hpath, hnew] at he'
    obtain rfl := Option.some.inj he'
    have hdirs : P.key (dirname m.path) = P.key (dirname dest) := by
      rw [← P.key_dirname, ← P.key_dirname, hpath]
    rw [hdirs] at hrest
    refine ⟨?_, rest, hrest, hshown.imp id (hfolder rest hrest).mp⟩
    rw [show basename dest = basename m.path from hname]
    exact hvisible
  · rintro ⟨hvisible, rest, hrest, hshown⟩
    have hpath : P.key (rootPath ++ rest ++ [basename dest]) = P.key dest := by
      rw [P.key_concat, hrest, hkey]
    have hshows : Shows P.lower (still P t') (rootPath ++ rest) (basename dest) false :=
      (shows_still hfiled').mpr
        ⟨hvisible, fun _ => noteOrImage_of_md L hmd hx, _, by rw [hpath, hnew], rfl, by simp [hfile]⟩
    obtain ⟨m, hm, hmpath, hdir⟩ := (listed_iff hperm).mpr
      ⟨rest ++ [basename dest], rfl, shownAt_concat.mpr ⟨hshown.imp id (hfolder rest hrest).mpr, hshows⟩⟩
    refine ⟨m, hm, ?_, hdir⟩
    rw [hmpath, ← List.append_assoc, hpath]

end Listed

/-! ### The law -/

/-- `rename` gives a file another path. -/
def Succeeds (P : Platform) (t : DirTree Text) (path : Path) (newName : Text) : Prop :=
  let dest := (Request.rename path newName).dest P t
  ¬ KeepsName P t path newName ∧ t.DirAt (P.key dest).dropLast ∧
    (P.isCaseOnlyRename path dest = true →
      P.key path = P.key dest ∨ MakesWay P t (t.DirAt (P.key path)) (P.key dest))

section Law
variable {P : Platform} {byName : List FsNode → List FsNode} {t : DirTree Text} {rootPath path newPath : Path}
  {newName : Text} {n : FsNode} {e : Entry Text} {w : World}

/-- A rename that returns has left all as it was, or has moved the entry. -/
theorem rename_ok_cases {w' : World} (h : FileSystem.rename P path newName w = .ok newPath w') :
    (newPath = path ∧ w' = w) ∨
    (Succeeds P w.tree path newName ∧ newPath = (Request.rename path newName).dest P w.tree ∧
      w'.tree.entry = DirTree.relocated w.tree.entry (P.key path) (P.key newPath) (basename newPath)) := by
  unfold Succeeds KeepsName
  dsimp only
  generalize hdest : (Request.rename path newName).dest P w.tree = dest
  rcases rename_checks w path newName hdest.symm with ⟨err, he, -⟩ | ⟨he, -⟩ | ⟨he, hname, hdiffers, hfree⟩
  · cases he.symm.trans h
  · obtain ⟨rfl, rfl⟩ := EStateM.Result.ok.inj (he.symm.trans h)
    exact Or.inl ⟨rfl, rfl⟩
  · rw [he] at h
    obtain ⟨rfl, hparent, hway, hmoved⟩ := renameEntity_entries P.length_of_caseOnly h
    refine Or.inr ⟨⟨?_, hparent, fun _ => hway⟩, rfl, hmoved⟩
    rintro (h | h | ⟨h1, h2⟩)
    · exact hname h
    · exact Bool.false_ne_true (hdiffers.symm.trans h)
    · exact hfree h1 h2

theorem rename_settled_cases (h : FileSystem.rename P path newName (settled t) = .ok newPath w) :
    (newPath = path ∧ w = settled t) ∨
    (Succeeds P t path newName ∧ newPath = (Request.rename path newName).dest P t ∧
      w.tree.entry = DirTree.relocated t.entry (P.key path) (P.key newPath) (basename newPath)) :=
  rename_ok_cases h

/-- A file is renamed where it can be. -/
theorem rename_of_succeeds (hentry : t.entry (P.key path) = some e) (hfile : e.node ≠ .dir)
    (h : Succeeds P t path newName) :
    ∃ w, FileSystem.rename P path newName (settled t) = .ok ((Request.rename path newName).dest P t) w := by
  unfold Succeeds KeepsName at h
  dsimp only at h
  generalize hdest : (Request.rename path newName).dest P t = dest at h ⊢
  obtain ⟨hkeeps, hparent, hway⟩ := h
  push Not at hkeeps
  obtain ⟨hname, hdiffers, hfree⟩ := hkeeps
  have hkind : KindIs t (t.DirAt (P.key path)) (P.key path) :=
    kindIs_of_isSome (DirTree.entry_isSome.mp (by simp [hentry]))
  rcases rename_checks (settled t) path newName hdest.symm with ⟨err, -, h | ⟨h1, h2⟩⟩ | ⟨-, heq⟩ | ⟨he, -⟩
  · exact absurd h hname
  · exact absurd h2 (hfree h1)
  · exact absurd heq hdiffers
  · rw [he, show (settled t).tree = t from rfl]
    cases hcase : P.isCaseOnlyRename path dest with
    | false =>
      have hfree := hfree hcase
      have hr : Renamable P t (t.DirAt (P.key path)) path dest := by
        refine ⟨hkind, fun h0 => hfree (Or.inl h0), hparent, fun hin => ?_, Or.inr ?_⟩
        · by_contra hne
          have hdrop : P.key dest ≠ [] := fun h0 => hfree (Or.inl h0)
          refine not_prefix_of_file hentry hfile hparent ?_
          rw [← List.dropLast_concat_getLast hdrop] at hin
          exact (List.prefix_concat_iff.mp hin).resolve_left (by rwa [List.dropLast_concat_getLast hdrop])
        · have hnone : t.node (P.key dest) = none := Option.not_isSome_iff_eq_none.mp fun h => hfree (Or.inr h)
          simp [MakesWay, hnone]
      rcases renameEntity_direct P t (t.DirAt (P.key path)) path dest with ⟨hr', he⟩ | ⟨hnot, -⟩
      · exact ⟨_, he⟩
      · exact absurd hr hnot
    | true =>
      have hlen := P.length_of_caseOnly hcase
      rcases renameEntity_viaTemp P t (t.DirAt (P.key path)) hlen with
        ⟨t', he, -⟩ | ⟨t', -, -, hne, hnot, -⟩ | ⟨-, hnot⟩
      · exact ⟨_, he⟩
      · exact absurd (hway hcase) (not_or.mpr ⟨hne, hnot⟩)
      · exact absurd ⟨hkind, hparent⟩ hnot

/-- A file is given the name of a note. -/
theorem basename_dest (L : Lowers P.lower) (hentry : t.entry (P.key path) = some e) (hfile : e.node ≠ .dir) :
    ∃ p c, (Request.rename path newName).dest P t = p ++ [c] ∧ ∃ x ∈ dotMd, x <:+ c := by
  have hdir : ¬ t.DirAt (P.key path) := fun h => not_prefix_of_file hentry hfile h List.prefix_rfl
  have hdotMd : ∀ x ∈ dotMd, '/' ∉ x ∧ x.length = 3 := by decide
  obtain ⟨x, hx, hsuffix⟩ := ensureMarkdown_md L newName
  obtain ⟨cs, c, hcs, hc⟩ := components_suffix hsuffix (hdotMd x hx).1
  have hlen := hc.length_le
  rw [(hdotMd x hx).2] at hlen
  obtain ⟨p, hp⟩ := join_concat (dirname path) hcs hlen
  refine ⟨p, c, ?_, x, hx, hc⟩
  rw [← hp, Request.dest, Platform.renameName]
  simp [hdir]

/-- What a node keeps when it is renamed: a folder is a folder, a note a note that is listed, an image an image that is
listed. -/
structure KeepsKind (P : Platform) (byName : List FsNode → List FsNode) (t' : DirTree Text) (rootPath : Path)
    (n : FsNode) (newPath : Path) : Prop where
  folder : n.isDirectory = true → t'.node (P.key newPath) = some .dir
  note : n.isMarkdown P.lower = true → ∃ m, Listed P.lower byName (still P t') rootPath m ∧
    P.key m.path = P.key newPath ∧ m.isMarkdown P.lower = true
  image : n.isImage P.lower = true → ∃ m, Listed P.lower byName (still P t') rootPath m ∧
    P.key m.path = P.key newPath ∧ m.isImage P.lower = true

/-- **Renamed to the name it is shown with, a node stays as it is, and renamed to another one, it keeps its kind.** -/
structure Lawful (P : Platform) (byName : List FsNode → List FsNode) (t : DirTree Text) (rootPath : Path) (n : FsNode)
    (newName : Text) : Prop where
  same : Unchanged t (FileSystem.rename P n.path (basename n.path) (settled t))
  kind : ∀ newPath w, FileSystem.rename P n.path newName (settled t) = .ok newPath w →
    KeepsKind P byName w.tree rootPath n newPath

/-- What a note's name makes of a node. -/
theorem kind_of_md (L : Lowers P.lower) (hfile : n.isDirectory = false) {x : Text} (hx : x ∈ dotMd)
    (hsuffix : x <:+ basename n.path) : n.isMarkdown P.lower = true ∧ n.isImage P.lower = false := by
  unfold FsNode.isMarkdown FsNode.isImage FsNode.name
  rw [hfile, not_image_of_md L hx hsuffix, (L.md _).mpr ⟨x, hx, hsuffix⟩]
  exact ⟨rfl, rfl⟩

/-- A folder that is renamed is a folder. -/
theorem keepsKind_folder (hdir : n.isDirectory = true) (hentry : t.entry (P.key n.path) = some e)
    (hnode : e.node = .dir)
    (h : FileSystem.rename P n.path newName (settled t) = .ok newPath w) :
    KeepsKind P byName w.tree rootPath n newPath := by
  refine ⟨fun _ => ?_, fun hnote => ?_, fun himage => ?_⟩
  · rcases rename_settled_cases h with ⟨rfl, rfl⟩ | ⟨-, -, hmoved⟩
    · rw [DirTree.node, show (settled t).tree = t from rfl, hentry, Option.map_some, hnode]
    · rw [DirTree.node, hmoved, DirTree.relocated_node, if_pos List.prefix_rfl, List.drop_length, List.append_nil,
        hentry, Option.map_some, hnode]
  · simp [FsNode.isMarkdown, hdir] at hnote
  · simp [FsNode.isImage, hdir] at himage

/-- What is listed where an entry has come to has its new name. -/
theorem basename_of_listed {t' : DirTree Text} {source dest : Path} {m : FsNode} (hperm : ∀ l, (byName l).Perm l)
    (hfiled : Filed P t) (hmoved : t'.entry = DirTree.relocated t.entry (P.key source) (P.key dest) (basename dest))
    (hm : Listed P.lower byName (still P t') rootPath m) (hpath : P.key m.path = P.key dest) :
    basename m.path = basename dest := by
  obtain ⟨-, -, -, e, he, hname, -⟩ := entry_of_listed hperm (filed_relocated hfiled hmoved) hm
  rw [hpath, hmoved, DirTree.relocated, if_pos List.prefix_rfl] at he
  obtain ⟨e', -, rfl⟩ := Option.map_eq_some_iff.mp he
  rw [← hname, if_pos rfl]

/-- A file that keeps its kind under the name of a note was one: else it is an image, and there is none at its path. -/
theorem isMarkdown_of_keepsKind {t' : DirTree Text} {dest : Path} {x : Text} (L : Lowers P.lower)
    (hperm : ∀ l, (byName l).Perm l) (hfiled : Filed P t) (hfile : n.isDirectory = false)
    (hshown : noteOrImage P.lower (basename n.path) = true)
    (hmoved : t'.entry = DirTree.relocated t.entry (P.key n.path) (P.key dest) (basename dest)) (hx : x ∈ dotMd)
    (hbase : x <:+ basename dest) (hkind : KeepsKind P byName t' rootPath n dest) : n.isMarkdown P.lower = true := by
  by_contra hno
  have himage : n.isImage P.lower = true := by
    simp only [noteOrImage, FsNode.isMarkdown, FsNode.isImage, FsNode.name, hfile, Bool.not_false,
      Bool.true_and] at hshown hno ⊢
    exact (Bool.or_eq_true_iff.mp hshown).resolve_left hno
  obtain ⟨m, hm, hpath, himage⟩ := hkind.image himage
  have hname := basename_of_listed hperm hfiled hmoved hm hpath
  exact Bool.false_ne_true ((kind_of_md L (file_of_isImage himage) hx (hname ▸ hbase)).2.symm.trans himage)

/-- **A file keeps its kind exactly if it is a note whose new path is one the tree shows**, or is not renamed. -/
theorem keepsKind_file_iff (L : Lowers P.lower) (hperm : ∀ l, (byName l).Perm l) (hfiled : Filed P t)
    (hn : Listed P.lower byName (still P t) rootPath n) (hfile : n.isDirectory = false) (newName : Text) :
    (∀ newPath w, FileSystem.rename P n.path newName (settled t) = .ok newPath w →
        KeepsKind P byName w.tree rootPath n newPath) ↔
      (Succeeds P t n.path newName → n.isMarkdown P.lower = true ∧
        ShownIn P t rootPath ((Request.rename n.path newName).dest P t)) := by
  obtain ⟨-, -, hnote, e, hentry, -, hnode⟩ := entry_of_listed hperm hfiled hn
  have hnotDir : e.node ≠ .dir := fun h => Bool.false_ne_true (hfile.symm.trans (hnode.mp h))
  have hnotFolder : ¬ n.isDirectory = true := by simp [hfile]
  obtain ⟨p, c, hdest, x, hx, hsuffix⟩ := @basename_dest P t n.path newName e L hentry hnotDir
  have hbase : x <:+ basename (p ++ [c]) := by simpa [basename] using hsuffix
  constructor
  · intro hkeeps hsucceeds
    obtain ⟨w, hw⟩ := rename_of_succeeds hentry hnotDir hsucceeds
    have hkind := hkeeps _ w hw
    rcases rename_settled_cases hw with ⟨hsame, -⟩ | ⟨⟨-, hparent, -⟩, -, hmoved⟩
    · refine absurd (Or.inr (Or.inl ?_)) hsucceeds.1
      rw [hsame]
      simp [Platform.equals]
    · rw [hdest] at hkind hparent hmoved ⊢
      have hmd := isMarkdown_of_keepsKind L hperm hfiled hfile (hnote hfile) hmoved hx hbase hkind
      refine ⟨hmd, ?_⟩
      obtain ⟨m, hm, hpath, hmmd⟩ := hkind.note hmd
      rw [P.key_dirname] at hparent
      exact (listed_renamed_iff L hperm hfiled hentry hnotDir hmoved (by simp) hparent hx hbase).mp
        ⟨m, hm, hpath, file_of_isMarkdown hmmd⟩
  · intro h newPath w hw
    rcases rename_settled_cases hw with ⟨rfl, rfl⟩ | ⟨hsucceeds, rfl, hmoved⟩
    · exact ⟨fun hdir => absurd hdir hnotFolder, fun hmd => ⟨n, hn, rfl, hmd⟩, fun himage => ⟨n, hn, rfl, himage⟩⟩
    · obtain ⟨hmd, hshown⟩ := h hsucceeds
      have hparent := hsucceeds.2.1
      rw [hdest] at hparent hmoved hshown ⊢
      rw [P.key_dirname] at hparent
      obtain ⟨m, hm, hpath, hmfile⟩ :=
        (listed_renamed_iff L hperm hfiled hentry hnotDir hmoved (by simp) hparent hx hbase).mpr hshown
      have hname := basename_of_listed hperm hfiled hmoved hm hpath
      refine ⟨fun hdir => absurd hdir hnotFolder, fun _ => ⟨m, hm, hpath, (kind_of_md L hmfile hx (hname ▸ hbase)).1⟩,
        fun himage => ?_⟩
      simp only [FsNode.isMarkdown, hfile, Bool.not_false, Bool.true_and, FsNode.name] at hmd
      obtain ⟨y, hy, hysuffix⟩ := (L.md _).mp hmd
      exact absurd himage (by simp [(kind_of_md L hfile hy hysuffix).2])

end Law

/-- A note and an image. -/
def twoFiles : List (Path × Entry Text) :=
  [(["a.md".toList], ⟨"a.md".toList, .file ['1']⟩), (["b.png".toList], ⟨"b.png".toList, .file ['2']⟩)]

def noteAndImage : DirTree Text := DirTree.ofEntries twoFiles (by decide)

theorem filed_noteAndImage : Filed posix noteAndImage := by
  intro p c e h
  have hname : ∀ x ∈ twoFiles, basename x.1 = x.2.name := by decide
  have hbase := hname _ (DirTree.mem_of_ofEntries h)
  simpa [basename, posix] using hbase.symm

theorem slashless_noteAndImage (q : Path) (e : Entry Text) (h : noteAndImage.entry q = some e) : '/' ∉ e.name := by
  have hname : ∀ x ∈ twoFiles, '/' ∉ x.2.name := by decide
  exact hname _ (DirTree.mem_of_ofEntries h)

end Notely.Desktop.RenamedNodes
