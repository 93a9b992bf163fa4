import Notely.Lib.Paths

/-! # The vault as the indexer finds it

A directory as `std::fs` reads it: entries in the order `read_dir` gives them, each a file, a directory or
something else. `collect_markdown` of `search/index.rs` gathers the notes: files with a Markdown extension
in no hidden directory, and not hidden themselves.

A directory holds no two entries of one name (`Dir.names`), so no note is gathered twice
(`nodup_collect`). -/

namespace Notely.Engine.VaultFiles

open Notely.Lib.Strings Notely.Lib.Paths

/-! ### File names -/

/-- A file name cut at its last dot, unless that is its first character. -/
def splitName (name : Text) : Text × Option Text :=
  let back := name.reverse.takeWhile (· ≠ '.')
  let front := (name.reverse.dropWhile (· ≠ '.')).drop 1
  if back.length = name.length ∨ front = [] then (name, none) else (front.reverse, some back.reverse)

/-- `file_stem`. -/
def fileStem (path : Path) : Text := (splitName (basename path)).1

/-- `is_markdown`. -/
def isMarkdown (name : Text) : Bool :=
  match (splitName name).2 with
  | some ext => ext.map Char.toLower = "md".toList || ext.map Char.toLower = "markdown".toList
  | none => false

/-! ### Files -/

/-- What `std::fs::metadata` tells: the seconds since the epoch, if there is a time after it, and the
size. -/
structure Metadata where
  modified : Option ℕ
  len : ℕ
  deriving DecidableEq, Repr

/-- The two numbers of a fingerprint. -/
structure Fingerprint where
  modified : ℕ
  len : ℕ
  deriving DecidableEq, Repr

/-- A file: `none` where `metadata`, or `read_to_string`, fails. -/
structure File where
  metadata : Option Metadata
  content : Option Text
  deriving DecidableEq, Repr

/-- `fingerprint`. -/
def File.fingerprint (f : File) : Option Fingerprint :=
  f.metadata.map fun m => ⟨m.modified.getD 0, m.len⟩

/-- A directory entry; `unreadable` stands for what `file_type` or, in a directory, `read_dir` fails on,
and for what is neither file nor directory. -/
inductive Dirent
  | file (name : Text) (file : File)
  | dir (name : Text) (entries : List Dirent)
  | unreadable (name : Text)

def Dirent.name : Dirent → Text
  | .file name _ => name
  | .dir name _ => name
  | .unreadable name => name

/-- `name.starts_with('.')`. -/
def hidden (name : Text) : Bool := name.head? = some '.'

mutual

/-- What `collect_markdown` makes of one entry. -/
def collectEntry (root : Path) : Dirent → List (Path × File)
  | .file name file => if hidden name then [] else if isMarkdown name then [(root ++ [name], file)] else []
  | .dir name entries => if hidden name then [] else collectMarkdown (root ++ [name]) entries
  | .unreadable _ => []

/-- `collect_markdown`. -/
def collectMarkdown (root : Path) : List Dirent → List (Path × File)
  | [] => []
  | entry :: entries => collectEntry root entry ++ collectMarkdown root entries

end

mutual

/-- No directory below the entry holds two entries of one name. -/
def Dirent.Names : Dirent → Prop
  | .file _ _ => True
  | .dir _ entries => NamesOf entries
  | .unreadable _ => True

/-- Neither do these entries of one directory. -/
def NamesOf : List Dirent → Prop
  | [] => True
  | entry :: entries => entry.Names ∧ NamesOf entries ∧ ∀ e ∈ entries, e.name ≠ entry.name

end

/-! ### No note is gathered twice -/

mutual

theorem prefix_of_mem_collectEntry (root : Path) : ∀ (entry : Dirent) {p : Path} {f : File},
    (p, f) ∈ collectEntry root entry → root ++ [entry.name] <+: p
  | .file name file, p, f, h => by
    simp only [collectEntry] at h
    split_ifs at h
    · simp at h
    · obtain ⟨rfl, -⟩ : p = root ++ [name] ∧ f = file := by simpa using h
      exact List.prefix_rfl
    · simp at h
  | .dir name entries, p, f, h => by
    simp only [collectEntry] at h
    split_ifs at h
    · simp at h
    · obtain ⟨e, -, he⟩ := prefix_of_mem_collectMarkdown (root ++ [name]) entries h
      exact (List.prefix_append _ _).trans he
  | .unreadable _, p, f, h => by simp [collectEntry] at h

theorem prefix_of_mem_collectMarkdown (root : Path) : ∀ (entries : List Dirent) {p : Path} {f : File},
    (p, f) ∈ collectMarkdown root entries → ∃ e ∈ entries, root ++ [e.name] <+: p
  | [], p, f, h => by simp [collectMarkdown] at h
  | entry :: entries, p, f, h => by
    simp only [collectMarkdown, List.mem_append] at h
    rcases h with h | h
    · exact ⟨entry, by simp, prefix_of_mem_collectEntry root entry h⟩
    · obtain ⟨e, he, hp⟩ := prefix_of_mem_collectMarkdown root entries h
      exact ⟨e, by simp [he], hp⟩

end

mutual

theorem nodup_collectEntry (root : Path) : ∀ (entry : Dirent), entry.Names →
    ((collectEntry root entry).map Prod.fst).Nodup
  | .file name file, _ => by
    simp only [collectEntry]
    split_ifs <;> simp
  | .dir name entries, h => by
    simp only [collectEntry]
    split_ifs
    · simp
    · exact nodup_collect (root ++ [name]) entries h
  | .unreadable _, _ => by simp [collectEntry]

/-- **No note is gathered twice.** -/
theorem nodup_collect (root : Path) : ∀ (entries : List Dirent), NamesOf entries →
    ((collectMarkdown root entries).map Prod.fst).Nodup
  | [], _ => by simp [collectMarkdown]
  | entry :: entries, ⟨h1, h2, h3⟩ => by
    rw [collectMarkdown, List.map_append, List.nodup_append]
    refine ⟨nodup_collectEntry root entry h1, nodup_collect root entries h2, ?_⟩
    rintro p hp q hq rfl
    obtain ⟨⟨p, f⟩, hf, rfl⟩ := List.mem_map.mp hp
    obtain ⟨⟨q, g⟩, hg, rfl⟩ := List.mem_map.mp hq
    obtain ⟨e, he, hpre⟩ := prefix_of_mem_collectMarkdown root entries hg
    have hpre' := prefix_of_mem_collectEntry root entry hf
    -- two names of one directory start the same path
    have heq : root ++ [e.name] = root ++ [entry.name] :=
      (List.prefix_of_prefix_length_le hpre hpre' (by simp)).eq_of_length (by simp)
    exact h3 e he (by simpa using heq)

end

/-- A directory with what is below it. -/
structure Vault where
  root : Path
  entries : List Dirent
  names : NamesOf entries

/-- The notes of the vault. -/
def Vault.files (v : Vault) : List (Path × File) := collectMarkdown v.root v.entries

theorem Vault.nodup (v : Vault) : (v.files.map Prod.fst).Nodup := nodup_collect v.root v.entries v.names

end Notely.Engine.VaultFiles
