import Mathlib.Algebra.Ring.Nat
import Notely.Lib.Paths

/-! # What the client uses of the Dart libraries

`String.trim` and the white space it removes, numbers in strings, and the UTF-16 code units in which lengths and
positions of strings are counted. -/

namespace Notely.Desktop.Dart

open Notely.Lib.Strings Notely.Lib.Paths

/-- What `String.trim` removes: White_Space and U+FEFF. -/
def whitespace (c : Char) : Bool := whiteSpace c || c == '\ufeff'

/-- `trim`. -/
def trim (s : Text) : Text := trimBy whitespace s

/-- `trimRight`. -/
def trimRight (s : Text) : Text := trimEndBy whitespace s

/-- `endsWith`. -/
def endsWith (s suffix : Text) : Bool := suffix <:+ s

/-- A number as interpolated into a string. -/
def digits (n : ℕ) : Text := Nat.toDigits 10 n

theorem digits_injective : Function.Injective digits := by
  intro m n h
  have hm := Nat.ofDigitChars_ten_toDigits (n := m)
  have hn := Nat.ofDigitChars_ten_toDigits (n := n)
  rw [digits, digits] at h
  rw [← hm, h, hn]

theorem isDigit_of_mem_digits {n : ℕ} {c : Char} (h : c ∈ digits n) : c.isDigit :=
  Nat.isDigit_of_mem_toDigits (by omega) (by omega) h

theorem digits_ne_nil (n : ℕ) : digits n ≠ [] := Nat.toDigits_ne_nil

/-- An integer as interpolated into a string: the digits of its size, after a minus sign if it is negative. -/
theorem toString_int (n : ℤ) :
    (toString n).toList = if 0 ≤ n then digits n.toNat else '-' :: digits (-n).toNat := by
  rw [Int.toString_eq_repr, Int.repr_eq_if]
  split_ifs
  · exact Nat.toList_repr
  · rw [String.toList_append, Nat.toList_repr]
    rfl

theorem toString_int_injective {m n : ℤ} (h : (toString m).toList = (toString n).toList) : m = n := by
  have hminus : ∀ i j : ℕ, digits i ≠ '-' :: digits j := by
    intro i j heq
    have hdigit : '-'.isDigit = true := isDigit_of_mem_digits (heq ▸ List.mem_cons_self)
    exact absurd hdigit (by decide)
  rw [toString_int, toString_int] at h
  split_ifs at h with hm hn hn
  · have hnat := digits_injective h
    omega
  · exact absurd h (hminus _ _)
  · exact absurd h.symm (hminus _ _)
  · have hnat := digits_injective (List.cons.inj h).2
    omega

/-! ### Code units -/

/-- The UTF-16 code units of a character. -/
def units (c : Char) : ℕ := if c.toNat < 0x10000 then 1 else 2

/-- `length`. -/
def length (s : Text) : ℕ := (s.map units).sum

/-- A text from a code unit on. -/
def skipUnits : ℕ → Text → Text
  | 0, s => s
  | _ + 1, [] => []
  | n + 1, c :: s => skipUnits (n + 1 - units c) s

/-- The first code units of a text; a character cut in two is kept. -/
def firstUnits : ℕ → Text → Text
  | 0, _ => []
  | _ + 1, [] => []
  | n + 1, c :: s => c :: firstUnits (n + 1 - units c) s

section Units
variable (s t : Text)

theorem units_pos (c : Char) : 0 < units c := by
  unfold units
  split_ifs <;> omega

@[simp] theorem length_nil : length [] = 0 := rfl
@[simp] theorem length_cons (c : Char) : length (c :: s) = units c + length s := by simp [length]
@[simp] theorem length_append : length (s ++ t) = length s + length t := by simp [length]
@[simp] theorem length_newline : length ['\n'] = 1 := by decide

/-- The units of a text without its first character. -/
theorem exists_length_cons (c : Char) (s : Text) : ∃ n, length (c :: s) = n + 1 ∧ n + 1 - units c = length s := by
  have hpos := units_pos c
  have hcons : length (c :: s) = units c + length s := length_cons s c
  exact ⟨length (c :: s) - 1, by omega, by omega⟩

theorem skipUnits_append : skipUnits (length s) (s ++ t) = t := by
  induction s with
  | nil => cases t <;> simp [skipUnits]
  | cons c s ih =>
    obtain ⟨n, hn, hrest⟩ := exists_length_cons c s
    rw [hn, List.cons_append, skipUnits, hrest, ih]

theorem firstUnits_append : firstUnits (length s) (s ++ t) = s := by
  induction s with
  | nil => simp [firstUnits]
  | cons c s ih =>
    obtain ⟨n, hn, hrest⟩ := exists_length_cons c s
    rw [hn, List.cons_append, firstUnits, hrest, ih]

end Units

end Notely.Desktop.Dart
