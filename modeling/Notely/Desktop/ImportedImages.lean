import Notely.Desktop.Creation

/-! # Imported images

`importImage` of `services/filesystem/file_system_service.dart`: an image is copied into the folder of the
attachments, under its own name or under that name with a number before the extension. `_uniquePath` looks for the
first of these names that nothing has.

* `splitExtension_append`: the two parts of a name.
* `key_numbered_injective`: the numbered names are different entries, also where letters of both cases are one.
* `uniqueLoop_eq`: so the loop ends, after as many turns as there are entries at most and two more.
* `uniquePath_law`: the name it ends with.
* `importImage_made`: nothing is written over. -/

namespace Notely.Desktop.ImportedImages

open Notely.Lib.Strings Notely.Lib.Paths Notely.Lib.FileTree Notely.Desktop.Dart Notely.Desktop.FileSystem
open Notely.Desktop.Creation

/-! ### The parts of a name -/

/-- The name of an entry of a folder. -/
structure FileName where
  text : Text
  slash_notMem : '/' ∉ text
  ne_nil : text ≠ []
  ne_dot : text ≠ ['.']
  ne_dots : text ≠ ['.', '.']

/-- `_splitExtension` of `package:path`: the last dot of a name and what follows it, unless the name starts there. -/
def splitExtension (file : Text) : Text × Text :=
  if file = ['.', '.'] then (file, [])
  else
    let after := file.rtakeWhile (· ≠ '.')
    let lastDot := file.length - after.length - 1
    if after.length + 1 < file.length then (file.take lastDot, file.drop lastDot) else (file, [])

/-- `p.basenameWithoutExtension` of a name. -/
def basenameWithoutExtension (file : Text) : Text := (splitExtension file).1

/-- `p.extension` of a name. -/
def extension (file : Text) : Text := (splitExtension file).2

theorem splitExtension_append (file : Text) : basenameWithoutExtension file ++ extension file = file := by
  unfold basenameWithoutExtension extension splitExtension
  split_ifs
  · exact List.append_nil file
  · dsimp only
    split_ifs
    · exact List.take_append_drop _ file
    · exact List.append_nil file

/-! ### The search -/

/-- `'$base $i$ext'`. -/
def numbered (fileName : Text) (i : ℕ) : Text :=
  basenameWithoutExtension fileName ++ ' ' :: digits i ++ extension fileName

/-- `candidate` in the turns of the loop. -/
def candidate (dirPath : Path) (fileName : Text) : ℕ → Path
  | 0 => join dirPath fileName
  | i + 1 => join dirPath (numbered fileName (i + 1))

variable (P : Platform)

/-- `await File(candidate).exists() || await Directory(candidate).exists()`. -/
def Taken (t : DirTree Text) (path : Path) : Prop :=
  (t.node (P.key path)).any Node.isFile = true ∨ t.DirAt (P.key path)

instance (t : DirTree Text) (path : Path) : Decidable (Taken P t path) := inferInstanceAs (Decidable (_ ∨ _))

/-- The loop of `_uniquePath` with a number of turns; `none` when they do not suffice. -/
def uniqueLoop (t : DirTree Text) (dirPath : Path) (fileName : Text) : ℕ → ℕ → Path → Option Path
  | 0, _, _ => none
  | turns + 1, i, path =>
    if Taken P t path then uniqueLoop t dirPath fileName turns (i + 1) (join dirPath (numbered fileName i))
    else some path

/-- `_uniquePath`. -/
def uniquePath (t : DirTree Text) (dirPath : Path) (fileName : Text) : Path :=
  candidate dirPath fileName
    (firstFree (fun k => Taken P t (candidate dirPath fileName k)) (t.support.length + 2) 0)

/-- Names that differ in a number are different entries, wherever the number stands. -/
def KeepsNumbers : Prop :=
  ∀ s d e u : Text, (∀ c ∈ d, c.isDigit) → (∀ c ∈ e, c.isDigit) → P.fold (s ++ d ++ u) = P.fold (s ++ e ++ u) → d = e

theorem lowerAscii_of_isDigit {d : Text} (hd : ∀ c ∈ d, c.isDigit) : lowerAscii d = d := by
  refine (List.map_congr_left fun c hc => ?_).trans (List.map_id d)
  have hdigit := hd c hc
  simp only [Char.isDigit, Bool.and_eq_true, decide_eq_true_eq] at hdigit
  have hnine : c.val.toNat ≤ 57 := UInt32.le_iff_toNat_le.mp hdigit.2
  have hnot : ¬ (c.val ≥ 'A'.val ∧ c.val ≤ 'Z'.val) := by
    rintro ⟨h, -⟩
    have hletter : 65 ≤ c.val.toNat := UInt32.le_iff_toNat_le.mp h
    omega
  exact dif_neg hnot

/-- Letters of both cases are one, as on macOS. -/
def caseless : Platform where
  lower := lowerAscii
  fold := lowerAscii
  equalsFold := id
  replacesEmptyDir := true
  fold_of_equals _ _ h := congrArg lowerAscii h
  fold_digits s d e hd he h := by
    rw [lowerAscii, lowerAscii, List.map_append, List.map_append, List.append_cancel_left_eq] at h
    rwa [← lowerAscii, ← lowerAscii, lowerAscii_of_isDigit hd, lowerAscii_of_isDigit he] at h

theorem caseless_keepsNumbers : KeepsNumbers caseless := by
  intro s d e u hd he h
  have hfold : ∀ x y z : Text, caseless.fold (x ++ y ++ z) = lowerAscii x ++ lowerAscii y ++ lowerAscii z := by
    intro x y z
    exact List.map_append.trans (congrArg (· ++ lowerAscii z) List.map_append)
  rw [hfold, hfold, List.append_cancel_right_eq, List.append_cancel_left_eq] at h
  rwa [lowerAscii_of_isDigit hd, lowerAscii_of_isDigit he] at h

theorem posix_keepsNumbers : KeepsNumbers posix := fun _ _ _ _ _ _ h =>
  List.append_cancel_left (List.append_cancel_right h)

section Search
variable {P} {t : DirTree Text} {dirPath : Path}

theorem taken_concat_iff {name : Text} :
    Taken P t (dirPath ++ [name]) ↔ (t.node (P.key (dirPath ++ [name]))).isSome := by
  have hne : P.key (dirPath ++ [name]) ≠ [] := by
    rw [P.key_concat]
    exact List.concat_ne_nil _ _
  unfold Taken DirTree.DirAt
  cases hn : t.node (P.key (dirPath ++ [name])) with
  | none => simp [hne]
  | some n => cases n <;> simp [Node.isFile]

/-- The loop at a candidate, when a later one is the first that is free. -/
theorem uniqueLoop_eq {fileName : Text} {turns i n : ℕ} (hfree : ¬ Taken P t (candidate dirPath fileName n))
    (htaken : ∀ j, i ≤ j → j < n → Taken P t (candidate dirPath fileName j)) (hin : i ≤ n) (hturns : n < i + turns) :
    uniqueLoop P t dirPath fileName turns (i + 1) (candidate dirPath fileName i) =
      some (candidate dirPath fileName n) := by
  induction turns generalizing i with
  | zero => omega
  | succ turns ih =>
    rw [uniqueLoop]
    rcases Nat.lt_or_eq_of_le hin with hlt | rfl
    · rw [if_pos (htaken i le_rfl hlt)]
      exact ih (fun j hj => htaken j (by omega)) (by omega) (by omega)
    · rw [if_neg hfree]

variable (f : FileName)

theorem join_fileName : join dirPath f.text = dirPath ++ [f.text] := by
  rw [join_of_notMem dirPath f.slash_notMem, descend, if_neg (not_or.mpr ⟨f.ne_nil, f.ne_dot⟩), if_neg f.ne_dots]

/-- A numbered name is a name. -/
def FileName.numbered (i : ℕ) : FileName where
  text := ImportedImages.numbered f.text i
  slash_notMem := by
    have hparts : '/' ∉ basenameWithoutExtension f.text ++ extension f.text := by
      rw [splitExtension_append]
      exact f.slash_notMem
    have hdigits : '/' ∉ digits i := fun h => absurd (isDigit_of_mem_digits h) (by decide)
    rw [List.mem_append, not_or] at hparts
    simp [ImportedImages.numbered, hparts.1, hparts.2, hdigits]
  ne_nil := by simp [ImportedImages.numbered]
  ne_dot h := by
    have hspace : ' ' ∈ ImportedImages.numbered f.text i := by simp [ImportedImages.numbered]
    rw [h] at hspace
    revert hspace
    decide
  ne_dots h := by
    have hspace : ' ' ∈ ImportedImages.numbered f.text i := by simp [ImportedImages.numbered]
    rw [h] at hspace
    revert hspace
    decide

theorem candidate_succ (i : ℕ) : candidate dirPath f.text (i + 1) = dirPath ++ [numbered f.text (i + 1)] :=
  join_fileName (f.numbered (i + 1))

variable (t dirPath)

/-- **The numbered names are different entries.** -/
theorem key_numbered_injective (hP : KeepsNumbers P) :
    Function.Injective fun i => P.key (candidate dirPath f.text (i + 1)) := by
  intro i j h
  simp only [candidate_succ, P.key_concat, List.append_cancel_left_eq, List.cons.injEq, and_true] at h
  have hsplit : ∀ k, numbered f.text k =
      basenameWithoutExtension f.text ++ [' '] ++ digits k ++ extension f.text := by
    intro k
    simp only [numbered, List.append_assoc, List.cons_append, List.nil_append]
  rw [hsplit, hsplit] at h
  have hdigits := hP _ _ _ _ (fun c hc => isDigit_of_mem_digits hc) (fun c hc => isDigit_of_mem_digits hc) h
  have := digits_injective hdigits
  omega

/-- One of the names is free. -/
theorem exists_not_taken (hP : KeepsNumbers P) :
    ∃ k < t.support.length + 2, decide (Taken P t (candidate dirPath f.text (0 + k))) = false := by
  obtain ⟨i, hi, hfree⟩ := exists_free t.support (key_numbered_injective dirPath f hP)
  refine ⟨i + 1, by omega, ?_⟩
  rw [decide_eq_false_iff_not, Nat.zero_add, candidate_succ, taken_concat_iff, ← candidate_succ]
  exact fun hsome => hfree (t.mem_support _ (DirTree.entry_isSome.mpr hsome))

/-- The search ends with the first candidate that is free. -/
theorem uniquePath_spec (hP : KeepsNumbers P) :
    ∃ n, uniquePath P t dirPath f.text = candidate dirPath f.text n ∧ n < t.support.length + 2 ∧
      ¬ Taken P t (candidate dirPath f.text n) ∧ ∀ j < n, Taken P t (candidate dirPath f.text j) := by
  obtain ⟨k, hk, hkfree⟩ := exists_not_taken t dirPath f hP
  obtain ⟨hfree, htaken⟩ := firstFree_spec (fun k => decide (Taken P t (candidate dirPath f.text k))) ⟨k, hk, hkfree⟩
  refine ⟨_, rfl, ?_, of_decide_eq_false hfree, fun j hj => of_decide_eq_true (htaken j (Nat.zero_le j) hj)⟩
  by_contra hge
  rw [htaken (0 + k) (Nat.zero_le _) (by omega)] at hkfree
  cases hkfree

/-- The path lies in the folder, and nothing has it. -/
theorem uniquePath_free (hP : KeepsNumbers P) :
    ∃ name, uniquePath P t dirPath f.text = dirPath ++ [name] ∧ t.node (P.key (dirPath ++ [name])) = none := by
  obtain ⟨n, hn, -, hfree, -⟩ := uniquePath_spec t dirPath f hP
  obtain ⟨name, hname⟩ : ∃ name, candidate dirPath f.text n = dirPath ++ [name] := by
    cases n with
    | zero => exact ⟨_, join_fileName f⟩
    | succ i => exact ⟨_, candidate_succ f i⟩
  rw [hname, taken_concat_iff, Option.not_isSome_iff_eq_none] at hfree
  exact ⟨name, hn.trans hname, hfree⟩

/-- **The path that `_uniquePath` ends with**: it lies in the folder, nothing has it, and its name is the one that was
asked for or, where that is taken, has the least number that makes it free before the extension. -/
theorem uniquePath_law (hP : KeepsNumbers P) (t : DirTree Text) (dirPath : Path) (f : FileName) :
    (∀ turns, t.support.length + 2 ≤ turns →
      uniqueLoop P t dirPath f.text turns 1 (join dirPath f.text) = some (uniquePath P t dirPath f.text)) ∧
    dirname (uniquePath P t dirPath f.text) = dirPath ∧
    t.node (P.key (uniquePath P t dirPath f.text)) = none ∧
    (¬ Taken P t (dirPath ++ [f.text]) → uniquePath P t dirPath f.text = dirPath ++ [f.text]) ∧
    (Taken P t (dirPath ++ [f.text]) →
      ∃ i, 0 < i ∧ uniquePath P t dirPath f.text =
        dirPath ++ [basenameWithoutExtension f.text ++ ' ' :: digits i ++ extension f.text] ∧
        ∀ j, 0 < j → j < i →
          Taken P t (dirPath ++ [basenameWithoutExtension f.text ++ ' ' :: digits j ++ extension f.text])) := by
  obtain ⟨n, hn, hbound, hfree, htaken⟩ := uniquePath_spec t dirPath f hP
  have hfirst : candidate dirPath f.text 0 = dirPath ++ [f.text] := join_fileName f
  refine ⟨fun turns hturns => ?_, ?_, ?_, fun h => ?_, fun h => ?_⟩
  · rw [hn]
    exact uniqueLoop_eq hfree (fun j _ hj => htaken j hj) (Nat.zero_le n) (by omega)
  · obtain ⟨name, hname, -⟩ := uniquePath_free t dirPath f hP
    rw [hname, dirname, List.dropLast_concat]
  · obtain ⟨name, hname, hnone⟩ := uniquePath_free t dirPath f hP
    rw [hname, hnone]
  · rcases Nat.eq_zero_or_pos n with rfl | hpos
    · rw [hn, hfirst]
    · exact absurd (hfirst ▸ htaken 0 hpos) h
  · obtain ⟨i, rfl⟩ : ∃ i, n = i + 1 := by
      refine ⟨n - 1, ?_⟩
      have hne : n ≠ 0 := by
        rintro rfl
        exact hfree (hfirst ▸ h)
      omega
    refine ⟨i + 1, by omega, by rw [hn, candidate_succ]; rfl, fun j hj hji => ?_⟩
    have hj' := htaken j hji
    obtain ⟨k, rfl⟩ : ∃ k, j = k + 1 := ⟨j - 1, by omega⟩
    rwa [candidate_succ] at hj'

end Search

/-- A folder with an image. -/
def onePhoto : DirTree Text := DirTree.ofEntries
  [(["a".toList], ⟨"a".toList, .dir⟩), (["a".toList, "photo.png".toList], ⟨"Photo.PNG".toList, .file ['0']⟩)]
  (by decide)

/-- The name is taken on a file system that does not tell the cases apart. -/
theorem uniquePath_law_photo :
    uniquePath caseless onePhoto ["a".toList] "photo.png".toList = ["a".toList, "photo 1.png".toList] :=
  Option.some.inj (((uniquePath_law caseless_keepsNumbers onePhoto ["a".toList]
    ⟨"photo.png".toList, by decide, by decide, by decide, by decide⟩).1 4 (by decide)).symm.trans (by decide))

/-! ### Importing -/

/-- `attachmentsDir`. -/
def attachmentsDir : Text := "attachments".toList

/-- `File.copy`. -/
def copyFile (source dest : Path) (t : DirTree Text) : Option (DirTree Text) :=
  match t.node (P.key source) with
  | some (.file content) => writeFile P dest content t
  | _ => none

/-- A folder is made with those on the way to it, if it is not there. -/
def ensureDir (dir : Path) : Fs Unit := do
  if ← directoryExists P dir then pure () else osChange (makeDirs P [] dir)

/-- `importImage`. -/
def importImage (stashRoot source : Path) : Fs Path := do
  if ← fileExists P source then
    let dir := join stashRoot attachmentsDir
    ensureDir P dir
    let w ← get
    let dest := uniquePath P w.tree dir (basename source)
    osChange (copyFile P source dest)
    pure dest
  else throw (.exception "Image not found".toList source)

section Import
variable {P} {t t' : DirTree Text} {w w' : World} {dir rest path stashRoot folder source dest : Path} {content : Text}

/-- A copy to where nothing is. -/
theorem copyFile_made (h : copyFile P source dest t = some t') (hfree : t.node (P.key dest) = none) :
    Extends t t' ∧ ∃ content, t.node (P.key source) = some (.file content) ∧
      t'.node (P.key dest) = some (.file content) := by
  unfold copyFile at h
  split at h
  · rename_i content hsource
    unfold writeFile at h
    split_ifs at h with hput
    obtain rfl := Option.some.inj h
    exact ⟨extends_put hput hfree, content, hsource, by rw [DirTree.node_put, if_pos rfl]⟩
  · cases h

theorem join_attachmentsDir : join stashRoot attachmentsDir = stashRoot ++ [attachmentsDir] :=
  join_fileName ⟨attachmentsDir, by decide, by decide, by decide, by decide⟩

theorem extends_ensureDir (h : ensureDir P dir w = .ok () w') : Extends w.tree w'.tree := by
  obtain ⟨a, w₁, hlook, h⟩ := bind_ok h
  obtain ⟨-, rfl⟩ := EStateM.Result.ok.inj hlook
  split_ifs at h
  · obtain ⟨-, rfl⟩ := EStateM.Result.ok.inj h
    exact fun _ _ => rfl
  · exact extends_makeDirs (osChange_ok h)

/-- **An imported image writes over nothing**: it is a new entry of the folder of the attachments, with the content of
its source, and all that was there is as it was. -/
theorem importImage_made (hP : KeepsNumbers P) (f : FileName)
    (h : importImage P stashRoot (folder ++ [f.text]) w = .ok dest w') :
    dirname dest = stashRoot ++ [attachmentsDir] ∧ w.tree.node (P.key dest) = none ∧ Extends w.tree w'.tree ∧
      ∃ content, w.tree.node (P.key (folder ++ [f.text])) = some (.file content) ∧
        w'.tree.node (P.key dest) = some (.file content) := by
  have hname : basename (folder ++ [f.text]) = f.text := by simp [basename]
  obtain ⟨found, w₀, hlook, h⟩ := bind_ok h
  obtain ⟨rfl, rfl⟩ := EStateM.Result.ok.inj hlook
  split_ifs at h with hfile
  · obtain ⟨⟨⟩, w₁, hdir, h⟩ := bind_ok h
    obtain ⟨w₂, w₃, hget, h⟩ := bind_ok h
    obtain ⟨rfl, rfl⟩ := EStateM.Result.ok.inj hget
    obtain ⟨⟨⟩, w₄, hcopy, hpure⟩ := bind_ok h
    obtain ⟨rfl, rfl⟩ := EStateM.Result.ok.inj hpure
    rw [hname, join_attachmentsDir] at hcopy ⊢
    rw [join_attachmentsDir] at hdir
    have hextends := extends_ensureDir hdir
    obtain ⟨name, hpath, hfree⟩ := uniquePath_free w₁.tree (stashRoot ++ [attachmentsDir]) f hP
    rw [hpath] at hcopy ⊢
    obtain ⟨hextends', content, hsource, hmade⟩ := copyFile_made (osChange_ok hcopy) hfree
    refine ⟨List.dropLast_concat, ?_, hextends.trans hextends', content, ?_, hmade⟩
    · by_contra hsome
      have hstill := hextends _ (Option.isSome_iff_ne_none.mpr hsome)
      exact hsome (hstill.symm.trans hfree)
    · obtain ⟨n, hn, -⟩ := (Option.any_eq_true _ _).mp hfile
      rw [← hsource]
      exact (hextends _ (by rw [hn]; rfl)).symm
  · cases h

end Import

end Notely.Desktop.ImportedImages
