import Mathlib.Data.List.DropRight
import Mathlib.Data.List.Infix

/-! # Strings as lists of characters

Texts are lists of Unicode scalar values. The functions are those the standard libraries of the
programs share: replacing every occurrence of a pattern from left to right (`replaceAll`), and trimming
by a class of characters (`trimBy`, with `trimStartBy` and `trimEndBy`).

`countP_trimBy`: trimming keeps every character outside the class; `append_sep_inj`: a text is split at its last
separator. -/

namespace Notely.Lib.Strings

/-- A text. -/
abbrev Text := List Char

/-! ### Replacing -/

/-- `replaceAll` with `skip` characters of a match still to pass over. -/
def replaceFrom (pat rep : Text) : ℕ → Text → Text
  | _, [] => []
  | skip + 1, _ :: cs => replaceFrom pat rep skip cs
  | 0, c :: cs =>
    if pat <+: c :: cs then rep ++ replaceFrom pat rep (pat.length - 1) cs
    else c :: replaceFrom pat rep 0 cs

/-- Every occurrence of the nonempty pattern, from left to right, replaced. -/
def replaceAll (pat rep s : Text) : Text := replaceFrom pat rep 0 s

/-- Replacing a character. -/
theorem replaceAll_singleton (p : Char) (rep s : Text) :
    replaceAll [p] rep s = s.flatMap fun c => if c = p then rep else [c] := by
  unfold replaceAll
  induction s with
  | nil => rfl
  | cons c s ih =>
    rw [List.flatMap_cons, replaceFrom]
    by_cases hc : c = p
    · have hpre : [p] <+: c :: s := by simp [hc]
      rw [if_pos hpre, if_pos hc, ← ih]
      rfl
    · have hpre : ¬ [p] <+: c :: s := by simpa using fun h => hc h.symm
      rw [if_neg hpre, if_neg hc, ih]
      rfl

/-! ### Trimming -/

def trimStartBy (p : Char → Bool) (s : Text) : Text := s.dropWhile p

def trimEndBy (p : Char → Bool) (s : Text) : Text := s.rdropWhile p

def trimBy (p : Char → Bool) (s : Text) : Text := trimEndBy p (trimStartBy p s)

/-- White_Space. -/
def whiteSpace (c : Char) : Bool :=
  let n := c.toNat
  (0x09 ≤ n && n ≤ 0x0D) || n == 0x20 || n == 0x85 || n == 0xA0 || n == 0x1680 ||
    (0x2000 ≤ n && n ≤ 0x200A) || n == 0x2028 || n == 0x2029 || n == 0x202F || n == 0x205F ||
    n == 0x3000

section Trim
variable {p : Char → Bool} {s : Text}

theorem trimBy_infix : trimBy p s <:+: s :=
  (List.rdropWhile_prefix p _).isInfix.trans (List.dropWhile_suffix p).isInfix

theorem trimBy_sublist : (trimBy p s).Sublist s := trimBy_infix.sublist

theorem trimBy_eq_nil_iff : trimBy p s = [] ↔ ∀ c ∈ s, p c := by
  rw [trimBy, trimEndBy, trimStartBy, List.rdropWhile_eq_nil_iff]
  constructor
  · intro h c hc
    rw [← List.takeWhile_append_dropWhile (p := p) (l := s), List.mem_append] at hc
    rcases hc with hc | hc
    · exact List.mem_takeWhile_imp hc
    · exact h c hc
  · exact fun h c hc => h c ((List.dropWhile_sublist p).subset hc)

theorem countP_trimStartBy : (trimStartBy p s).countP (! p ·) = s.countP (! p ·) := by
  induction s with
  | nil => rfl
  | cons c s ih =>
    unfold trimStartBy at ih ⊢
    by_cases hc : p c
    · simpa [hc] using ih
    · simp [hc]

theorem countP_trimEndBy : (trimEndBy p s).countP (! p ·) = s.countP (! p ·) := by
  have h := countP_trimStartBy (p := p) (s := s.reverse)
  rwa [List.countP_reverse, ← List.countP_reverse, trimStartBy] at h

/-- **Trimming keeps every character outside the class.** -/
theorem countP_trimBy : (trimBy p s).countP (! p ·) = s.countP (! p ·) := by
  rw [trimBy, countP_trimEndBy, countP_trimStartBy]

theorem head?_trimBy : ∀ c ∈ (trimBy p s).head?, p c = false := by
  intro c hc
  obtain ⟨t, ht⟩ := List.head?_eq_some_iff.mp hc
  obtain ⟨u, hu⟩ : trimBy p s <+: s.dropWhile p := List.rdropWhile_prefix p _
  have hfirst := List.head?_dropWhile_not p s
  rw [← hu, ht] at hfirst
  exact hfirst

theorem getLast?_trimBy : ∀ c ∈ (trimBy p s).getLast?, p c = false := by
  intro c hc
  obtain ⟨hne, hlast⟩ := List.mem_getLast?_eq_getLast hc
  rw [hlast]
  exact Bool.eq_false_iff.mpr (List.rdropWhile_last_not p _ hne)

/-- A text with nothing of the class at its ends stays as it is. -/
theorem trimBy_eq_self (hhead : ∀ c ∈ s.head?, p c = false) (hlast : ∀ c ∈ s.getLast?, p c = false) :
    trimBy p s = s := by
  have hstart : trimStartBy p s = s := by
    cases s with
    | nil => rfl
    | cons c s => exact List.dropWhile_cons_of_neg (by simp [hhead c rfl])
  rw [trimBy, hstart, trimEndBy, List.rdropWhile_eq_self_iff]
  intro hne
  rw [hlast _ (List.getLast?_eq_some_getLast hne)]
  decide

theorem trimBy_cons {c : Char} (h : p c = true) : trimBy p (c :: s) = trimBy p s := by
  rw [trimBy, trimBy, trimStartBy, trimStartBy, List.dropWhile_cons_of_pos h]

theorem trimBy_concat {c : Char} (h : p c = true) : trimBy p (s ++ [c]) = trimBy p s := by
  rw [trimBy, trimBy, trimStartBy, trimStartBy, trimEndBy, trimEndBy, List.dropWhile_append]
  split_ifs with hall
  · rw [List.isEmpty_iff.mp hall, List.dropWhile_cons_of_pos h, List.dropWhile_nil]
  · exact List.rdropWhile_concat_pos p _ c h

/-- **What no character of the class at an end changes**, trimming does not change. -/
theorem apply_trimBy {β : Type*} {g : Text → β} (hcons : ∀ c s, p c = true → g (c :: s) = g s)
    (hconcat : ∀ c s, p c = true → g (s ++ [c]) = g s) (s : Text) : g (trimBy p s) = g s := by
  have hstart : ∀ s, g (trimStartBy p s) = g s := by
    intro s
    induction s with
    | nil => rfl
    | cons c s ih =>
      by_cases hc : p c = true
      · rw [trimStartBy, List.dropWhile_cons_of_pos hc, hcons c s hc]
        exact ih
      · rw [trimStartBy, List.dropWhile_cons_of_neg hc]
  have hend : ∀ s, g (trimEndBy p s) = g s := by
    intro s
    induction s using List.reverseRecOn with
    | nil => rfl
    | append_singleton s c ih =>
      by_cases hc : p c = true
      · rw [trimEndBy, List.rdropWhile_concat_pos p _ c hc, hconcat c s hc]
        exact ih
      · rw [trimEndBy, List.rdropWhile_concat_neg p _ c hc]
  rw [trimBy, hend, hstart]

/-- A text is trimmed at its end inside of the last part that has more than the class. -/
theorem trimEndBy_append {t : Text} (h : ∃ c ∈ t, p c = false) :
    trimEndBy p (s ++ t) = s ++ trimEndBy p t := by
  obtain ⟨c, hc, hp⟩ := h
  have hne : t.reverse.dropWhile p ≠ [] := by
    intro hnil
    rw [List.dropWhile_eq_nil_iff] at hnil
    rw [hnil c (List.mem_reverse.mpr hc)] at hp
    exact absurd hp (by decide)
  rw [trimEndBy, trimEndBy, List.rdropWhile, List.rdropWhile, List.reverse_append, List.dropWhile_append,
    if_neg (by simpa using hne), List.reverse_append, List.reverse_reverse]

end Trim

/-! ### Separators -/

/-- The characters of a piece are characters of the text, and no separators. -/
theorem of_mem_splitOnP {p : Char → Bool} {s w : Text} (h : w ∈ s.splitOnP p) : ∀ c ∈ w, p c = false ∧ c ∈ s := by
  induction s generalizing w with
  | nil =>
    rw [List.splitOnP_nil, List.mem_singleton] at h
    simp [h]
  | cons c s ih =>
    have hcons : ∀ {w}, w ∈ s.splitOnP p → ∀ d ∈ w, p d = false ∧ d ∈ c :: s := fun hw d hd =>
      (ih hw d hd).imp id (List.mem_cons_of_mem c)
    rw [List.splitOnP_cons_eq_if_modifyHead] at h
    by_cases hc : p c
    · rw [if_pos hc] at h
      rcases List.mem_cons.mp h with rfl | h
      · simp
      · exact hcons h
    · rw [if_neg hc] at h
      cases hs : s.splitOnP p with
      | nil => exact absurd hs (List.splitOnP_ne_nil _ _)
      | cons v vs =>
        rw [hs] at h hcons
        rcases List.mem_cons.mp h with rfl | h
        · intro d hd
          rcases List.mem_cons.mp hd with rfl | hd
          · simpa using hc
          · exact hcons List.mem_cons_self d hd
        · exact hcons (List.mem_cons_of_mem _ h)

/-- A piece of a split text has no separator in it. -/
theorem sep_false_of_mem_splitOnP {p : Char → Bool} {s w : Text} (h : w ∈ s.splitOnP p) :
    ∀ c ∈ w, p c = false := fun c hc => (of_mem_splitOnP h c hc).1

/-- The pieces of a text have its characters. -/
theorem subset_of_mem_splitOnP {p : Char → Bool} {s w : Text} (h : w ∈ s.splitOnP p) : w ⊆ s :=
  fun c hc => (of_mem_splitOnP h c hc).2

theorem subset_of_mem_splitOn {sep : Char} {s w : Text} (h : w ∈ s.splitOn sep) : w ⊆ s := by
  rw [List.splitOn_eq_splitOnP] at h
  exact subset_of_mem_splitOnP h

theorem sep_notMem_of_mem_splitOn {sep : Char} {s w : Text} (h : w ∈ s.splitOn sep) : sep ∉ w := by
  intro hsep
  rw [List.splitOn_eq_splitOnP] at h
  simpa using sep_false_of_mem_splitOnP h sep hsep

/-- A text is split at its last separator. -/
theorem append_sep_inj {sep : Char} {a a' b b' : Text} (hb : sep ∉ b) (hb' : sep ∉ b')
    (h : a ++ sep :: b = a' ++ sep :: b') : a = a' ∧ b = b' := by
  have hsame {a a' b b' c : Text} (hb : sep ∉ b) (hc : a' = a ++ c) (h : sep :: b = c ++ sep :: b') :
      a = a' ∧ b = b' := by
    cases c with
    | nil =>
      rw [List.append_nil] at hc
      exact ⟨hc.symm, (List.cons.inj h).2⟩
    | cons x c =>
      refine absurd ?_ hb
      rw [(List.cons.inj h).2]
      simp
  rcases List.append_eq_append_iff.mp h with ⟨c, hc, h⟩ | ⟨c, hc, h⟩
  · exact hsame hb hc h
  · obtain ⟨ha, hb⟩ := hsame hb' hc h
    exact ⟨ha.symm, hb.symm⟩

end Notely.Lib.Strings
