import Notely.Lib.Strings

/-! # Absolute paths

A path is the list of its components from the root, normalized: no empty component, no `.`, no `..`.
`Within p q` says that `q` lies strictly below `p`, `moved old new p` is where the entry at `p` is found
after `old` was renamed to `new`, and `join` puts a relative name under a directory and normalizes. -/

namespace Notely.Lib.Paths

open Notely.Lib.Strings

/-- A normalized absolute path. -/
abbrev Path := List Text

/-- The last component. -/
def basename (p : Path) : Text := p.getLastD []

/-- The path of the containing directory. -/
def dirname (p : Path) : Path := p.dropLast

/-- `q` lies strictly below `p`. -/
def Within (p q : Path) : Prop := p <+: q ∧ p ≠ q

instance (p q : Path) : Decidable (Within p q) := inferInstanceAs (Decidable (_ ∧ _))

/-- Where the entry at `p` is found once `old` is called `new`. -/
def moved (old new p : Path) : Path := if old <+: p then new ++ p.drop old.length else p

theorem moved_append (old new rest : Path) : moved old new (old ++ rest) = new ++ rest := by
  simp [moved]

theorem dirname_basename {p : Path} (h : p ≠ []) : dirname p ++ [basename p] = p := by
  unfold dirname basename
  rw [List.getLastD_eq_getLast?, List.getLast?_eq_some_getLast h]
  exact List.dropLast_concat_getLast h

/-! ### Joining a name -/

/-- One component of a joined name: `.` and the empty one stay, `..` goes up. -/
def descend (p : Path) (c : Text) : Path :=
  if c = [] ∨ c = ['.'] then p else if c = ['.', '.'] then p.dropLast else p ++ [c]

/-- The pieces between the slashes. -/
def components (s : Text) : List Text := s.splitOn '/'

/-- A name joined to a directory and normalized; an absolute name replaces the directory. -/
def join (dir : Path) (name : Text) : Path :=
  (components name).foldl descend (if name.head? = some '/' then [] else dir)

section Names
variable {name c e : Text}

theorem join_of_notMem (dir : Path) (h : '/' ∉ name) : join dir name = descend dir name := by
  have hhead : ¬ name.head? = some '/' := fun hhead => h (List.mem_of_mem_head? hhead)
  rw [join, if_neg hhead, components, List.splitOn_eq_singleton h]
  rfl

/-- The end of a name without a slash is the end of its last piece. -/
theorem components_suffix (he : e <:+ name) (hslash : '/' ∉ e) : ∃ cs c, components name = cs ++ [c] ∧ e <:+ c := by
  obtain ⟨s, rfl⟩ := he
  unfold components
  induction s with
  | nil => exact ⟨[], e, by rw [List.nil_append, List.splitOn_eq_singleton hslash]; rfl, List.suffix_rfl⟩
  | cons a s ih =>
    obtain ⟨cs, c, hcs, hc⟩ := ih
    rw [List.cons_append, List.splitOn_cons_eq_if_modifyHead, hcs]
    split_ifs
    · exact ⟨[] :: cs, c, rfl, hc⟩
    · cases cs with
      | nil => exact ⟨[], a :: c, rfl, hc.trans (List.suffix_cons a c)⟩
      | cons d cs => exact ⟨(a :: d) :: cs, c, rfl, hc⟩

/-- A piece of three characters is a component. -/
theorem join_concat {cs : List Text} (dir : Path) (h : components name = cs ++ [c]) (hc : 3 ≤ c.length) :
    ∃ p, join dir name = p ++ [c] := by
  have hproper : ¬ (c = [] ∨ c = ['.']) ∧ ¬ c = ['.', '.'] := by
    refine ⟨?_, ?_⟩
    · rintro (rfl | rfl) <;> simp at hc
    · rintro rfl
      simp at hc
  refine ⟨cs.foldl descend (if name.head? = some '/' then [] else dir), ?_⟩
  rw [join, h, List.foldl_append, List.foldl_cons, List.foldl_nil, descend, if_neg hproper.1, if_neg hproper.2]

end Names

end Notely.Lib.Paths
