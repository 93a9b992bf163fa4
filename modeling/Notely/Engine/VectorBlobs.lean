import Notely.Engine.SearchIndex
import Notely.Lib.FixedCodes

/-! # Vectors as blobs

`encode_vector` and `decode_vector` of `search/index.rs`: the table `embeddings` keeps a vector as the bytes of its
`f32`s, the lowest byte of each first. A float is its bit pattern, so that what is said holds of every NaN, of the
infinities and of both zeros.

* `decodeLoop_eq`: the loop reads no byte out of range, and what it reads are the words of a `FixedCode`.
* `roundtrip`: a vector comes back bit for bit; bytes come back up to their last multiple of four.
* `readRows_storeRows`: so the rows of a table of blobs are the rows that `SearchIndex` keeps. -/

namespace Notely.Engine.VectorBlobs

open Notely.Lib.FixedCodes Notely.Engine.SearchIndex

abbrev Byte := BitVec 8

/-- An `f32`, as `to_bits` gives it. -/
structure F32 where
  bits : BitVec 32
  deriving DecidableEq, Repr

/-- `f32::to_le_bytes`. -/
def F32.toLeBytes (f : F32) : List Byte :=
  [f.bits.extractLsb' 0 8, f.bits.extractLsb' 8 8, f.bits.extractLsb' 16 8, f.bits.extractLsb' 24 8]

/-- `f32::from_le_bytes`. -/
def F32.fromLeBytes (b₀ b₁ b₂ b₃ : Byte) : F32 := ⟨b₃ ++ b₂ ++ b₁ ++ b₀⟩

/-- `encode_vector`. -/
def encodeVector (v : List F32) : List Byte := v.foldl (fun out f => out ++ f.toLeBytes) []

/-- The loop of `decode_vector` at the index `i`; `none` is an index out of range. No slice is so long that `i + 4`
leaves a `usize`. -/
def decodeLoop (bytes : List Byte) (i : ℕ) (out : List F32) : Option (List F32) :=
  if i + 4 ≤ bytes.length then do
    let b₀ ← bytes[i]?
    let b₁ ← bytes[i + 1]?
    let b₂ ← bytes[i + 2]?
    let b₃ ← bytes[i + 3]?
    decodeLoop bytes (i + 4) (out ++ [F32.fromLeBytes b₀ b₁ b₂ b₃])
  else some out
termination_by bytes.length - i

/-- `decode_vector`. -/
def decodeVector (bytes : List Byte) : Option (List F32) := decodeLoop bytes 0 []

/-! ### One float -/

theorem fromLeBytes_toLeBytes (f : F32) :
    F32.fromLeBytes (f.bits.extractLsb' 0 8) (f.bits.extractLsb' 8 8) (f.bits.extractLsb' 16 8)
      (f.bits.extractLsb' 24 8) = f := by
  have h₁ : f.bits.extractLsb' 24 8 ++ f.bits.extractLsb' 16 8 = f.bits.extractLsb' 16 16 :=
    BitVec.extractLsb'_append_extractLsb'_eq_extractLsb' rfl
  have h₂ : f.bits.extractLsb' 16 16 ++ f.bits.extractLsb' 8 8 = f.bits.extractLsb' 8 24 :=
    BitVec.extractLsb'_append_extractLsb'_eq_extractLsb' rfl
  have h₃ : f.bits.extractLsb' 8 24 ++ f.bits.extractLsb' 0 8 = f.bits.extractLsb' 0 32 :=
    BitVec.extractLsb'_append_extractLsb'_eq_extractLsb' rfl
  rw [F32.fromLeBytes, h₁, h₂, h₃, BitVec.extractLsb'_eq_self]

theorem toLeBytes_fromLeBytes (b₀ b₁ b₂ b₃ : Byte) :
    (F32.fromLeBytes b₀ b₁ b₂ b₃).toLeBytes = [b₀, b₁, b₂, b₃] := by
  rw [F32.fromLeBytes, F32.toLeBytes]
  refine congrArg₂ _ ?_ (congrArg₂ _ ?_ (congrArg₂ _ ?_ (congrArg₂ _ ?_ rfl)))
  · rw [BitVec.extractLsb'_append_eq_of_add_le (by omega), BitVec.extractLsb'_eq_self]
  · rw [BitVec.extractLsb'_append_eq_of_le (by omega), BitVec.extractLsb'_append_eq_of_add_le (by omega),
      BitVec.extractLsb'_eq_self]
  · rw [BitVec.extractLsb'_append_eq_of_le (by omega), BitVec.extractLsb'_append_eq_of_le (by omega),
      BitVec.extractLsb'_append_eq_of_add_le (by omega), BitVec.extractLsb'_eq_self]
  · rw [BitVec.extractLsb'_append_eq_of_le (by omega), BitVec.extractLsb'_append_eq_of_le (by omega),
      BitVec.extractLsb'_append_eq_of_le (by omega), BitVec.extractLsb'_eq_self]

/-- Floats as words of four bytes. -/
def floats : FixedCode F32 Byte where
  length := 4
  length_pos := by decide
  encode := F32.toLeBytes
  decode
    | [b₀, b₁, b₂, b₃] => F32.fromLeBytes b₀ b₁ b₂ b₃
    | _ => ⟨0⟩
  length_encode _ := rfl
  decode_encode := fromLeBytes_toLeBytes
  encode_decode l hl := by
    obtain ⟨b₀, b₁, b₂, b₃, rfl⟩ := List.length_eq_four.mp hl
    exact toLeBytes_fromLeBytes b₀ b₁ b₂ b₃

theorem length_floats : floats.length = 4 := rfl

/-! ### The loops -/

theorem encodeVector_eq (v : List F32) : encodeVector v = floats.encodeAll v := by
  have h : ∀ out : List Byte, v.foldl (fun out f => out ++ f.toLeBytes) out = out ++ floats.encodeAll v := by
    induction v with
    | nil => intro out; rw [List.foldl_nil, floats.encodeAll_nil, List.append_nil]
    | cons f v ih =>
      intro out
      rw [List.foldl_cons, ih, floats.encodeAll_cons, List.append_assoc]
      rfl
  exact h []

/-- Four bytes are there to be read. -/
theorem window {bytes : List Byte} {i : ℕ} (h : i + 4 ≤ bytes.length) :
    ∃ b₀ b₁ b₂ b₃, bytes[i]? = some b₀ ∧ bytes[i + 1]? = some b₁ ∧ bytes[i + 2]? = some b₂ ∧
      bytes[i + 3]? = some b₃ ∧ bytes.drop i = b₀ :: b₁ :: b₂ :: b₃ :: bytes.drop (i + 4) := by
  refine ⟨_, _, _, _, List.getElem?_eq_getElem (by omega), List.getElem?_eq_getElem (by omega),
    List.getElem?_eq_getElem (by omega), List.getElem?_eq_getElem (by omega), ?_⟩
  rw [List.drop_eq_getElem_cons (by omega), List.drop_eq_getElem_cons (by omega),
    List.drop_eq_getElem_cons (by omega), List.drop_eq_getElem_cons (by omega)]

/-- What the loop still reads: the words from its index on, none of them out of range. -/
theorem decodeLoop_eq (bytes : List Byte) (i : ℕ) (out : List F32) :
    decodeLoop bytes i out = some (out ++ floats.decodeAll (bytes.drop i)) := by
  induction i, out using decodeLoop.induct bytes with
  | case1 i out hle ih =>
    obtain ⟨b₀, b₁, b₂, b₃, h₀, h₁, h₂, h₃, hdrop⟩ := window hle
    have hlen : floats.length ≤ (bytes.drop i).length := by
      rw [List.length_drop, length_floats]
      omega
    rw [decodeLoop, if_pos hle, h₀, h₁, h₂, h₃, floats.decodeAll_of_le hlen, hdrop]
    refine (ih b₀ b₁ b₂ b₃).trans ?_
    rw [List.append_assoc]
    rfl
  | case2 i out hlt =>
    have hlen : (bytes.drop i).length < floats.length := by
      rw [List.length_drop, length_floats]
      omega
    rw [decodeLoop, if_neg hlt, floats.decodeAll_of_lt hlen, List.append_nil]

theorem decodeVector_eq (bytes : List Byte) : decodeVector bytes = some (floats.decodeAll bytes) :=
  decodeLoop_eq bytes 0 []

theorem decodeVector_encodeVector (v : List F32) : decodeVector (encodeVector v) = some v := by
  rw [decodeVector_eq, encodeVector_eq, floats.decodeAll_encodeAll]

/-- **Vector blobs round-trip**, both ways. -/
theorem roundtrip :
    (∀ v : List F32, decodeVector (encodeVector v) = some v) ∧
    ∀ b : List Byte, ∃ v, decodeVector b = some v ∧ encodeVector v = b.take (4 * (b.length / 4)) := by
  refine ⟨decodeVector_encodeVector, fun b => ⟨_, decodeVector_eq b, ?_⟩⟩
  rw [encodeVector_eq, floats.encodeAll_decodeAll, length_floats]

/-! ### The table -/

/-- The rows of `embeddings` as they are stored. -/
def storeRows (rows : List (Embedding F32)) : List (Embedding Byte) :=
  rows.map fun r => ⟨r.chunkIx, r.passage, encodeVector r.vector⟩

/-- The rows as `vector_search_blocking` reads them. -/
def readRows (rows : List (Embedding Byte)) : Option (List (Embedding F32)) :=
  rows.mapM fun r => (decodeVector r.vector).map fun v => ⟨r.chunkIx, r.passage, v⟩

/-- **A table of blobs keeps the vectors**: what is read is what was stored. -/
theorem readRows_storeRows (rows : List (Embedding F32)) : readRows (storeRows rows) = some rows := by
  rw [readRows, storeRows, List.mapM_map]
  induction rows with
  | nil => rfl
  | cons r rows ih =>
    rw [List.mapM_cons, Function.comp_apply, decodeVector_encodeVector, ih]
    rfl

end Notely.Engine.VectorBlobs
