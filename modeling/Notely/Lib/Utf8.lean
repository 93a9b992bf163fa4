import Notely.Lib.Strings

/-! # UTF-8 and the decoder that replaces what is malformed

Bytes are natural numbers. `encode` is the UTF-8 of a text; `decodeFrom` reads bytes one at a time, and
writes a U+FFFD for every maximal part that starts like a character and is none, a byte that starts no
character included; `decode` also drops a leading U+FEFF.

* `decodeFrom_encode`: the UTF-8 of a text is read back.
* `decodeFrom_torn`: the front of a character's bytes is read as one U+FFFD.
* `decodeFrom_continuation`: each continuation byte outside a character is read as one U+FFFD.
* `strict`: the decoder that refuses what is malformed; `strict_concat`: a character of one byte at the end.

So what a text becomes when its bytes are cut and the parts decoded one by one is told character by
character. -/

namespace Notely.Lib.Utf8

open Notely.Lib.Strings

/-! ### Encoding -/

/-- The UTF-8 of a character. -/
def encodeChar (c : Char) : List ℕ :=
  if c.toNat < 0x80 then [c.toNat]
  else if c.toNat < 0x800 then [0xC0 + c.toNat / 64, 0x80 + c.toNat % 64]
  else if c.toNat < 0x10000 then
    [0xE0 + c.toNat / 64 / 64, 0x80 + c.toNat / 64 % 64, 0x80 + c.toNat % 64]
  else
    [0xF0 + c.toNat / 64 / 64 / 64, 0x80 + c.toNat / 64 / 64 % 64, 0x80 + c.toNat / 64 % 64,
      0x80 + c.toNat % 64]

/-- The UTF-8 of a text. -/
def encode (t : Text) : List ℕ := t.flatMap encodeChar

@[simp] theorem encode_nil : encode [] = [] := rfl
@[simp] theorem encode_cons (c : Char) (t : Text) : encode (c :: t) = encodeChar c ++ encode t := by
  simp [encode]
@[simp] theorem encode_append (s t : Text) : encode (s ++ t) = encode s ++ encode t := by
  simp [encode]

/-! ### Decoding -/

/-- U+FFFD. -/
def replacement : Char := '\ufffd'

/-- U+FEFF. -/
def bom : Char := '\ufeff'

/-- Between characters, or inside one: the bytes to come after the next, what was read of the code
point, and the bounds of the next byte. -/
inductive State
  | idle
  | need (more acc lo hi : ℕ)
  deriving DecidableEq, Repr

/-- The first byte of a character. -/
def lead (b : ℕ) : Text × State :=
  if b < 0x80 then ([Char.ofNat b], .idle)
  else if 0xC2 ≤ b ∧ b ≤ 0xDF then ([], .need 0 (b - 0xC0) 0x80 0xBF)
  else if b = 0xE0 then ([], .need 1 0 0xA0 0xBF)
  else if b = 0xED then ([], .need 1 0xD 0x80 0x9F)
  else if 0xE1 ≤ b ∧ b ≤ 0xEF then ([], .need 1 (b - 0xE0) 0x80 0xBF)
  else if b = 0xF0 then ([], .need 2 0 0x90 0xBF)
  else if b = 0xF4 then ([], .need 2 4 0x80 0x8F)
  else if 0xF1 ≤ b ∧ b ≤ 0xF3 then ([], .need 2 (b - 0xF0) 0x80 0xBF)
  else ([replacement], .idle)

/-- One byte: what is written, and the next state. -/
def feed : State → ℕ → Text × State
  | .idle, b => lead b
  | .need more acc lo hi, b =>
    if lo ≤ b ∧ b ≤ hi then
      match more with
      | 0 => ([Char.ofNat (acc * 64 + (b - 0x80))], .idle)
      | more + 1 => ([], .need more (acc * 64 + (b - 0x80)) 0x80 0xBF)
    else (replacement :: (lead b).1, (lead b).2)

/-- The text of the bytes; a character still open at the end is replaced. -/
def decodeFrom : State → List ℕ → Text
  | .idle, [] => []
  | .need _ _ _ _, [] => [replacement]
  | s, b :: bs => (feed s b).1 ++ decodeFrom (feed s b).2 bs

def dropBom : Text → Text
  | [] => []
  | c :: cs => if c = bom then cs else c :: cs

/-- The text of a sequence of bytes. -/
def decode (bs : List ℕ) : Text := dropBom (decodeFrom .idle bs)

/-! ### The bytes of one character -/

section Feed
variable {more acc lo hi b : ℕ}

theorem decodeFrom_cons {s s' : State} {b : ℕ} {t : Text} (h : feed s b = (t, s')) (bs : List ℕ) :
    decodeFrom s (b :: bs) = t ++ decodeFrom s' bs := by
  cases s <;> simp [decodeFrom, h]

theorem feed_last (hb : lo ≤ b ∧ b ≤ hi) {n : ℕ} (hn : acc * 64 + (b - 0x80) = n) :
    feed (.need 0 acc lo hi) b = ([Char.ofNat n], .idle) := by
  simp [feed, hb, hn]

theorem feed_more (hb : lo ≤ b ∧ b ≤ hi) {n : ℕ} (hn : acc * 64 + (b - 0x80) = n) :
    feed (.need (more + 1) acc lo hi) b = ([], .need more n 0x80 0xBF) := by
  simp [feed, hb, hn]

theorem feed_continuation (hb : 0x80 ≤ b ∧ b ≤ 0xBF) : feed .idle b = ([replacement], .idle) := by
  simp only [feed, lead]
  rw [if_neg (by omega), if_neg (by omega), if_neg (by omega), if_neg (by omega), if_neg (by omega),
    if_neg (by omega), if_neg (by omega), if_neg (by omega)]

theorem lead_two (h1 : 2 ≤ acc) (h2 : acc < 32) : feed .idle (0xC0 + acc) = ([], .need 0 acc 0x80 0xBF) := by
  simp only [feed, lead]
  rw [if_neg (by omega), if_pos (by omega), Nat.add_sub_cancel_left]

/-- The first of three bytes leaves room for the second one of any character. -/
theorem lead_three (acc b : ℕ) (h1 : acc < 16) (hb : b < 64) (hlo : 32 ≤ acc * 64 + b)
    (hs : acc * 64 + b < 864 ∨ 896 ≤ acc * 64 + b) :
    ∃ lo hi, feed .idle (0xE0 + acc) = ([], .need 1 acc lo hi) ∧ lo ≤ 0x80 + b ∧ 0x80 + b ≤ hi := by
  simp only [feed, lead]
  rw [if_neg (by omega), if_neg (by omega)]
  by_cases h0 : acc = 0
  · exact ⟨0xA0, 0xBF, by rw [if_pos (by omega), h0], by omega, by omega⟩
  rw [if_neg (by omega)]
  by_cases hd : acc = 13
  · exact ⟨0x80, 0x9F, by rw [if_pos (by omega), hd], by omega, by omega⟩
  rw [if_neg (by omega)]
  exact ⟨0x80, 0xBF, by rw [if_pos (by omega), Nat.add_sub_cancel_left], by omega, by omega⟩

theorem lead_four (acc b : ℕ) (hb : b < 64) (hlo : 16 ≤ acc * 64 + b) (hhi : acc * 64 + b < 272) :
    ∃ lo hi, feed .idle (0xF0 + acc) = ([], .need 2 acc lo hi) ∧ lo ≤ 0x80 + b ∧ 0x80 + b ≤ hi := by
  simp only [feed, lead]
  rw [if_neg (by omega), if_neg (by omega), if_neg (by omega), if_neg (by omega), if_neg (by omega)]
  by_cases h0 : acc = 0
  · exact ⟨0x90, 0xBF, by rw [if_pos (by omega), h0], by omega, by omega⟩
  rw [if_neg (by omega)]
  by_cases h4 : acc = 4
  · exact ⟨0x80, 0x8F, by rw [if_pos (by omega), h4], by omega, by omega⟩
  rw [if_neg (by omega)]
  exact ⟨0x80, 0xBF, by rw [if_pos (by omega), Nat.add_sub_cancel_left], by omega, by omega⟩

end Feed

/-- The bytes of a character as the decoder meets them: all but the last are taken in silently, the
last one writes the character. -/
inductive Spells (c : Char) : State → List ℕ → Prop
  | last {s : State} {b : ℕ} (h : feed s b = ([c], .idle)) : Spells c s [b]
  | more {s s' : State} {b : ℕ} {bs : List ℕ} (h : feed s b = ([], s')) (hne : s' ≠ .idle)
      (hbs : Spells c s' bs) : Spells c s (b :: bs)

theorem spells_encodeChar (c : Char) : Spells c .idle (encodeChar c) := by
  have hv : c.toNat < 55296 ∨ 57343 < c.toNat ∧ c.toNat < 1114112 := c.valid
  have hc : Char.ofNat c.toNat = c := Char.ofNat_toNat c
  unfold encodeChar
  generalize hn : c.toNat = n at hv hc ⊢
  split_ifs with h1 h2 h3
  · exact .last (by simp [feed, lead, h1, hc])
  · refine .more (lead_two (by omega) (by omega)) nofun (.last ?_)
    rw [feed_last ⟨by omega, by omega⟩ (show n / 64 * 64 + (128 + n % 64 - 128) = n by omega), hc]
  · obtain ⟨lo, hi, hl, hlo, hhi⟩ := lead_three (n / 64 / 64) (n / 64 % 64) (by omega)
      (by omega) (by omega) (by omega)
    refine .more hl nofun (.more (feed_more ⟨hlo, hhi⟩ (n := n / 64) (by omega)) nofun (.last ?_))
    rw [feed_last ⟨by omega, by omega⟩ (show n / 64 * 64 + (128 + n % 64 - 128) = n by omega), hc]
  · obtain ⟨lo, hi, hl, hlo, hhi⟩ := lead_four (n / 64 / 64 / 64) (n / 64 / 64 % 64)
      (by omega) (by omega) (by omega)
    refine .more hl nofun (.more (feed_more ⟨hlo, hhi⟩ (n := n / 64 / 64) (by omega)) nofun
      (.more (feed_more ⟨by omega, by omega⟩ (n := n / 64) (by omega)) nofun (.last ?_)))
    rw [feed_last ⟨by omega, by omega⟩ (show n / 64 * 64 + (128 + n % 64 - 128) = n by omega), hc]

theorem Spells.ne_nil {c : Char} {s : State} {bs : List ℕ} (h : Spells c s bs) : bs ≠ [] := by
  cases h <;> simp

theorem Spells.decodeFrom_append {c : Char} {s : State} {bs : List ℕ} (h : Spells c s bs)
    (rest : List ℕ) : decodeFrom s (bs ++ rest) = c :: decodeFrom .idle rest := by
  induction h with
  | last h => simp [decodeFrom_cons h]
  | more h _ _ ih => simpa [decodeFrom_cons h] using ih

/-- Cut before its end, a character is replaced once. -/
theorem Spells.decodeFrom_front {c : Char} {s : State} {bs q q' : List ℕ} (h : Spells c s bs)
    (he : bs = q ++ q') (hq : s ≠ .idle ∨ q ≠ []) (hq' : q' ≠ []) : decodeFrom s q = [replacement] := by
  induction h generalizing q with
  | @last s b h =>
    cases q with
    | nil =>
      cases s with
      | idle => simp at hq
      | need _ _ _ _ => rfl
    | cons a q => simp_all
  | @more s s' b bs h hne _ ih =>
    cases q with
    | nil =>
      cases s with
      | idle => simp at hq
      | need _ _ _ _ => rfl
    | cons a q =>
      obtain ⟨rfl, rfl⟩ : b = a ∧ bs = q ++ q' := by simpa using he
      rw [decodeFrom_cons h, List.nil_append]
      exact ih rfl (Or.inl hne)

theorem encodeChar_ne_nil (c : Char) : encodeChar c ≠ [] := (spells_encodeChar c).ne_nil

/-- A byte that starts no character. -/
def Continuation (b : ℕ) : Prop := 0x80 ≤ b ∧ b ≤ 0xBF

theorem continuation_tail (c : Char) : ∀ b ∈ (encodeChar c).tail, Continuation b := by
  unfold encodeChar Continuation
  intro b hb
  split_ifs at hb <;> simp at hb <;> omega

/-! ### Texts -/

/-- **The UTF-8 of a text is read back.** -/
theorem decodeFrom_encode (t : Text) (bs : List ℕ) :
    decodeFrom .idle (encode t ++ bs) = t ++ decodeFrom .idle bs := by
  induction t with
  | nil => rfl
  | cons c t ih =>
    rw [encode_cons, List.append_assoc, (spells_encodeChar c).decodeFrom_append, ih, List.cons_append]

theorem decodeFrom_torn {c : Char} {q q' : List ℕ} (h : encodeChar c = q ++ q') (hq : q ≠ [])
    (hq' : q' ≠ []) : decodeFrom .idle q = [replacement] :=
  (spells_encodeChar c).decodeFrom_front h (Or.inr hq) hq'

theorem decodeFrom_continuation {r : List ℕ} (h : ∀ b ∈ r, Continuation b) (bs : List ℕ) :
    decodeFrom .idle (r ++ bs) = List.replicate r.length replacement ++ decodeFrom .idle bs := by
  induction r with
  | nil => rfl
  | cons b r ih =>
    rw [List.cons_append, decodeFrom_cons (feed_continuation (h b (by simp))),
      ih fun b hb => h b (by simp [hb])]
    rfl

/-! ### Cutting a text's bytes -/

/-- A cut of a text's bytes falls between two characters or inside one. -/
theorem cut_encode {t : Text} {bs rest : List ℕ} (h : bs ++ rest = encode t) :
    (∃ t1 t2, t = t1 ++ t2 ∧ bs = encode t1 ∧ rest = encode t2) ∨
      ∃ t1 c t2 q q', t = t1 ++ c :: t2 ∧ encodeChar c = q ++ q' ∧ q ≠ [] ∧ q' ≠ [] ∧
        bs = encode t1 ++ q ∧ rest = q' ++ encode t2 := by
  induction t generalizing bs with
  | nil =>
    obtain ⟨rfl, rfl⟩ : bs = [] ∧ rest = [] := by simpa using h
    exact Or.inl ⟨[], [], rfl, rfl, rfl⟩
  | cons c t ih =>
    rw [encode_cons] at h
    rcases List.append_eq_append_iff.mp h with ⟨q', hq, hrest⟩ | ⟨bs', rfl, hbs⟩
    · -- the cut is in the first character, or at one of its ends
      by_cases hb : bs = []
      · exact Or.inl ⟨[], c :: t, rfl, hb, by simpa [hb] using h⟩
      by_cases hq' : q' = []
      · exact Or.inl ⟨[c], t, rfl, by simp [hq, hq'], by simpa [hq'] using hrest⟩
      exact Or.inr ⟨[], c, t, bs, q', rfl, hq, hb, hq', rfl, hrest⟩
    · rcases ih hbs.symm with ⟨t1, t2, rfl, rfl, rfl⟩ | ⟨t1, d, t2, q, q', rfl, hd, hq, hq', rfl, rfl⟩
      · exact Or.inl ⟨c :: t1, t2, rfl, by simp, rfl⟩
      · exact Or.inr ⟨c :: t1, d, t2, q, q', rfl, hd, hq, hq', by simp, rfl⟩

/-! ### The decoder that refuses -/

/-- The text whose UTF-8 the bytes are. -/
def strict (bs : List ℕ) : Option Text :=
  if encode (decodeFrom .idle bs) = bs then some (decodeFrom .idle bs) else none

theorem strict_eq_some {bs : List ℕ} {t : Text} : strict bs = some t ↔ bs = encode t := by
  have hdecode : decodeFrom .idle (encode t) = t := by simpa [decodeFrom] using decodeFrom_encode t []
  constructor
  · intro h
    simp only [strict, Option.ite_none_right_eq_some, Option.some.injEq] at h
    rw [← h.2, h.1]
  · rintro rfl
    simp [strict, hdecode]

@[simp] theorem strict_encode (t : Text) : strict (encode t) = some t := strict_eq_some.mpr rfl

/-- A character of one byte ends a text, and what is before it is a text. -/
theorem strict_concat {c : Char} (hc : c.toNat < 0x80) (bs : List ℕ) :
    strict (bs ++ [c.toNat]) = (strict bs).map (· ++ [c]) := by
  have hbyte : encode [c] = [c.toNat] := by simp [encode, encodeChar, hc]
  cases hs : strict bs with
  | some t =>
    rw [strict_eq_some.mp hs, ← hbyte, ← encode_append, strict_encode]
    rfl
  | none =>
    rw [Option.map_none, Option.eq_none_iff_forall_ne_some]
    intro t ht
    have hno {t1 : Text} : bs ≠ encode t1 := fun h => by rw [strict_eq_some.mpr h] at hs; cases hs
    rcases cut_encode (strict_eq_some.mp ht) with ⟨t1, t2, -, hbs, -⟩ | ⟨t1, d, t2, q, q', -, hd, hq, hq', -, hrest⟩
    · exact hno hbs
    · -- the byte would continue a character
      obtain ⟨b, q', rfl⟩ := List.exists_cons_of_ne_nil hq'
      obtain ⟨a, q, rfl⟩ := List.exists_cons_of_ne_nil hq
      have hcont : Continuation b := continuation_tail d b (by simp [hd])
      have hb : c.toNat = b := (List.cons.inj hrest).1
      unfold Continuation at hcont
      omega

end Notely.Lib.Utf8
