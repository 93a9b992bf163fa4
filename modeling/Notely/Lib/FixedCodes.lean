import Mathlib.Data.List.Basic
import Mathlib.Data.Nat.Notation

/-! # Codes of a fixed length

Words that all take the same number of symbols, written one after another without marks between them, and read back
while a whole word remains.

* `FixedCode`: words and their symbols, `length` of them for each word.
* `decodeAll_encodeAll`: the words come back.
* `encodeAll_decodeAll`: what is read of any symbols, written again, is the symbols without those after the last whole
  word. -/

namespace Notely.Lib.FixedCodes

variable {W S : Type*}

/-- Words of `length` symbols each, every list of as many symbols a word. -/
structure FixedCode (W S : Type*) where
  length : ℕ
  length_pos : 0 < length
  encode : W → List S
  decode : List S → W
  length_encode : ∀ w, (encode w).length = length
  decode_encode : ∀ w, decode (encode w) = w
  encode_decode : ∀ l : List S, l.length = length → encode (decode l) = l

namespace FixedCode

variable (C : FixedCode W S)

/-- The symbols of words, one after another. -/
def encodeAll (v : List W) : List S := v.flatMap C.encode

/-- The words at the front, as long as a whole word remains. -/
def decodeAll (l : List S) : List W :=
  if C.length ≤ l.length then C.decode (l.take C.length) :: decodeAll (l.drop C.length) else []
termination_by l.length
decreasing_by
  have := C.length_pos
  rw [List.length_drop]
  omega

@[simp] theorem encodeAll_nil : C.encodeAll [] = [] := rfl

@[simp] theorem encodeAll_cons (w : W) (v : List W) : C.encodeAll (w :: v) = C.encode w ++ C.encodeAll v := rfl

theorem decodeAll_of_lt {l : List S} (h : l.length < C.length) : C.decodeAll l = [] := by
  rw [decodeAll, if_neg (by omega)]

theorem decodeAll_of_le {l : List S} (h : C.length ≤ l.length) :
    C.decodeAll l = C.decode (l.take C.length) :: C.decodeAll (l.drop C.length) := by
  rw [decodeAll, if_pos h]

/-- A word at the front is read, and then the rest. -/
theorem decodeAll_encode_append (w : W) (l : List S) : C.decodeAll (C.encode w ++ l) = w :: C.decodeAll l := by
  have hw := C.length_encode w
  rw [C.decodeAll_of_le (by rw [List.length_append]; omega), List.take_left' hw, List.drop_left' hw, C.decode_encode]

/-- **The words come back.** -/
theorem decodeAll_encodeAll (v : List W) : C.decodeAll (C.encodeAll v) = v := by
  induction v with
  | nil => exact C.decodeAll_of_lt C.length_pos
  | cons w v ih => rw [encodeAll_cons, decodeAll_encode_append, ih]

/-- **So do the symbols**, up to the last whole word. -/
theorem encodeAll_decodeAll (l : List S) :
    C.encodeAll (C.decodeAll l) = l.take (C.length * (l.length / C.length)) := by
  induction l using decodeAll.induct C with
  | case1 l hle ih =>
    have hq : l.length / C.length = (l.length - C.length) / C.length + 1 := by
      rw [Nat.div_eq_sub_div C.length_pos hle]
    have hlen : (l.take C.length).length = C.length := by rw [List.length_take]; omega
    rw [C.decodeAll_of_le hle, encodeAll_cons, C.encode_decode _ hlen, ih, List.length_drop, hq, Nat.mul_add,
      Nat.mul_one, Nat.add_comm, List.take_add]
  | case2 l hlt =>
    rw [C.decodeAll_of_lt (by omega), Nat.div_eq_of_lt (by omega), Nat.mul_zero, List.take_zero, encodeAll_nil]

end FixedCode

end Notely.Lib.FixedCodes
