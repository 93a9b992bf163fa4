import Mathlib.Algebra.Group.Int.Defs
import Mathlib.Algebra.Group.Nat.Defs
import Mathlib.Data.Rat.Defs
import Mathlib.Data.List.Basic

/-! # JSON texts

Strings are lists of UTF-16 code units, which need not be well formed: half of a pair is written as an escape. A reader
takes a value from the front of a text and leaves the rest; white space may stand between, and the last of two members
of one name counts, which is left to whoever looks a member up.

* `string_content`, `number_intUnits`: strings and integers are read as they were written.
* `decode_encode`: so is every value whose numbers have no fraction.
* `value_of_length_le`: the length of a text is fuel enough. -/

namespace Notely.Lib.JsonText

/-- A string, as its code units. -/
abbrev Units := List ℕ

/-! ### Strings -/

def hexDigit (x : ℕ) : ℕ := if x < 10 then 48 + x else 87 + x

def hexValue (u : ℕ) : Option ℕ :=
  if 48 ≤ u ∧ u ≤ 57 then some (u - 48)
  else if 97 ≤ u ∧ u ≤ 102 then some (u - 87)
  else if 65 ≤ u ∧ u ≤ 70 then some (u - 55)
  else none

theorem hexValue_hexDigit {x : ℕ} (h : x < 16) : hexValue (hexDigit x) = some x := by
  unfold hexDigit
  split_ifs with h10
  · rw [hexValue, if_pos (by omega), Nat.add_sub_cancel_left]
  · rw [hexValue, if_neg (by omega), if_pos (by omega), Nat.add_sub_cancel_left]

/-- The first half of a pair, and the second. -/
def high (u : ℕ) : Bool := 0xD800 ≤ u && u < 0xDC00

def low (u : ℕ) : Bool := 0xDC00 ≤ u && u < 0xE000

/-- Half of a pair without the other half beside it. -/
def lone (prev : Option ℕ) (u : ℕ) (next : Option ℕ) : Bool := (high u && ! next.any low) || (low u && ! prev.any high)

/-- A code unit as it is written, between others. -/
def escape (prev : Option ℕ) (u : ℕ) (next : Option ℕ) : Units :=
  if 92 < u then
    if lone prev u next then [92, 117, 100, hexDigit (u / 256 % 16), hexDigit (u / 16 % 16), hexDigit (u % 16)] else [u]
  else if u < 32 then
    if u = 8 then [92, 98]
    else if u = 9 then [92, 116]
    else if u = 10 then [92, 110]
    else if u = 12 then [92, 102]
    else if u = 13 then [92, 114]
    else [92, 117, 48, 48, hexDigit (u / 16 % 16), hexDigit (u % 16)]
  else if u = 34 ∨ u = 92 then [92, u]
  else [u]

/-- A string as it is written between its quotes. -/
def content (prev : Option ℕ) : Units → Units
  | [] => []
  | u :: s => escape prev u s.head? ++ content (some u) s

def quote (s : Units) : Units := 34 :: (content none s ++ [34])

/-- What a character after a backslash stands for. -/
def unescape (e : ℕ) : Option ℕ :=
  if e = 34 ∨ e = 92 ∨ e = 47 then some e
  else if e = 98 then some 8
  else if e = 116 then some 9
  else if e = 110 then some 10
  else if e = 102 then some 12
  else if e = 114 then some 13
  else none

/-- The code unit of four hexadecimal digits. -/
def fourHex (a b c d : ℕ) : Option ℕ := do
  return ((← hexValue a) * 16 + (← hexValue b)) * 256 + (← hexValue c) * 16 + (← hexValue d)

/-- A string is read up to its closing quote. -/
def string : Units → Option (Units × Units)
  | [] => none
  | u :: t =>
    if u = 34 then some ([], t)
    else if u < 32 then none
    else if u = 92 then
      match t with
      | 117 :: a :: b :: c :: d :: t => do
        let v ← fourHex a b c d
        let (s, rest) ← string t
        return (v :: s, rest)
      | e :: t => do
        let v ← unescape e
        let (s, rest) ← string t
        return (v :: s, rest)
      | [] => none
    else do
      let (s, rest) ← string t
      return (u :: s, rest)

section Strings
variable {u : ℕ} {s t rest : Units}

/-- A unit in front of a string that was read. -/
def consUnit (u : ℕ) (read : Option (Units × Units)) : Option (Units × Units) := do
  let (s, rest) ← read
  return (u :: s, rest)

theorem fourHex_eq {a b c d : ℕ} (ha : a < 16) (hb : b < 16) (hc : c < 16) (hd : d < 16) :
    fourHex (hexDigit a) (hexDigit b) (hexDigit c) (hexDigit d) = some ((a * 16 + b) * 256 + c * 16 + d) := by
  simp only [fourHex, hexValue_hexDigit ha, hexValue_hexDigit hb, hexValue_hexDigit hc, hexValue_hexDigit hd]
  rfl

theorem string_plain (h34 : u ≠ 34) (h32 : ¬ u < 32) (h92 : u ≠ 92) : string (u :: t) = consUnit u (string t) := by
  rw [string.eq_def]
  simp only [if_neg h34, if_neg h32, if_neg h92]
  rfl

theorem string_escaped {e v : ℕ} (h : unescape e = some v) : string (92 :: e :: t) = consUnit v (string t) := by
  have h117 : e ≠ 117 := by
    rintro rfl
    cases h
  rw [string, if_neg (by decide), if_neg (by decide), if_pos rfl, h]
  · rfl
  · rintro a b c d t' rfl -
    exact h117 rfl

theorem string_hex {a b c d v : ℕ} (h : fourHex a b c d = some v) :
    string (92 :: 117 :: a :: b :: c :: d :: t) = consUnit v (string t) := by
  rw [string, if_neg (by decide), if_neg (by decide), if_pos rfl]
  simp only [h]
  rfl

/-- Only surrogates are written as they are not. -/
theorem lone_range {prev next : Option ℕ} (h : lone prev u next = true) : 0xD800 ≤ u ∧ u < 0xE000 := by
  simp only [lone, high, low, Bool.or_eq_true, Bool.and_eq_true, decide_eq_true_eq] at h
  omega

/-- **A unit is read as it was written.** -/
theorem string_escape (prev : Option ℕ) (u : ℕ) (next : Option ℕ) (t : Units) :
    string (escape prev u next ++ t) = consUnit u (string t) := by
  unfold escape
  split_ifs with h92 hlone h32 h8 h9 h10 h12 h13 hquote
  · have hrange := lone_range hlone
    refine string_hex ?_
    rw [show (100 : ℕ) = hexDigit 13 by rfl, fourHex_eq (by omega) (by omega) (by omega) (by omega)]
    exact congrArg some (by omega)
  · exact string_plain (by omega) (by omega) (by omega)
  · exact string_escaped (by subst h8; rfl)
  · exact string_escaped (by subst h9; rfl)
  · exact string_escaped (by subst h10; rfl)
  · exact string_escaped (by subst h12; rfl)
  · exact string_escaped (by subst h13; rfl)
  · refine string_hex ?_
    rw [show (48 : ℕ) = hexDigit 0 by rfl, fourHex_eq (by omega) (by omega) (by omega) (by omega)]
    exact congrArg some (by omega)
  · exact string_escaped (by rw [unescape, if_pos (by omega)])
  · exact string_plain (by omega) (by omega) (by omega)

/-- **A string is read as it was written**, and what follows its quotes is left. -/
theorem string_content (prev : Option ℕ) (s rest : Units) :
    string (content prev s ++ 34 :: rest) = some (s, rest) := by
  induction s generalizing prev with
  | nil =>
    rw [content, List.nil_append, string.eq_def]
    rfl
  | cons u s ih =>
    rw [content, List.append_assoc, string_escape, ih]
    rfl

end Strings

/-! ### Numbers -/

/-- A JSON value. A number with a fraction or an exponent is kept exactly; of members of one name, the last counts. -/
inductive Json
  | null
  | bool (value : Bool)
  | int (value : ℤ)
  | dec (value : ℚ)
  | str (units : Units)
  | arr (items : List Json)
  | obj (members : List (Units × Json))

def isDigit (u : ℕ) : Bool := 48 ≤ u && u ≤ 57

def natUnits (n : ℕ) : Units := (Nat.toDigits 10 n).map Char.toNat

/-- An integer as it is written. -/
def intUnits (n : ℤ) : Units := if n < 0 then 45 :: natUnits n.natAbs else natUnits n.natAbs

def digitsValue (ds : Units) : ℕ := ds.foldl (fun n d => 10 * n + (d - 48)) 0

/-- The digits after a point, if there is one. -/
def fraction (t : Units) : Option (Units × Units) :=
  if t.head? = some 46 then
    if t.tail.takeWhile isDigit = [] then none else some (t.tail.takeWhile isDigit, t.tail.dropWhile isDigit)
  else some ([], t)

/-- The sign of what follows: it is negative, and the rest. -/
def signed (t : Units) : Bool × Units := if t.head? = some 45 then (true, t.tail) else (false, t)

/-- An exponent, if there is one. -/
def exponent (t : Units) : Option (Option ℤ × Units) :=
  if t.head? = some 101 ∨ t.head? = some 69 then
    let (negative, t) := if t.tail.head? = some 43 then (false, t.tail.tail) else signed t.tail
    let ds := t.takeWhile isDigit
    if ds = [] then none
    else some (some (if negative then -(digitsValue ds : ℤ) else digitsValue ds), t.dropWhile isDigit)
  else some (none, t)

/-- A number of a sign, digits before and after the point, and an exponent. -/
def decimal (negative : Bool) (ds fs : Units) (e : ℤ) : ℚ :=
  let m : ℤ := digitsValue (ds ++ fs)
  let z := e - fs.length
  mkRat ((if negative then -m else m) * 10 ^ z.toNat) (10 ^ (-z).toNat)

/-- A number is read; without a fraction and an exponent it is an integer. -/
def number (t : Units) : Option (Json × Units) :=
  let (negative, t) := signed t
  let ds := t.takeWhile isDigit
  if ds = [] ∨ (ds.head? = some 48 ∧ ds ≠ [48]) then none
  else do
    let (fs, t) ← fraction (t.dropWhile isDigit)
    let (e, rest) ← exponent t
    if fs = [] ∧ e = none then
      return (.int (if negative then -(digitsValue ds : ℤ) else digitsValue ds), rest)
    else return (.dec (decimal negative ds fs (e.getD 0)), rest)

section Numbers
variable {n : ℕ} {t rest : Units}

/-- Nothing follows that goes on a number. -/
def Ends (t : Units) : Prop := ∀ u ∈ t.head?, isDigit u = false ∧ u ≠ 46 ∧ u ≠ 101 ∧ u ≠ 69

theorem digitsValue_natUnits (n : ℕ) : digitsValue (natUnits n) = n := by
  have h := Nat.ofDigitChars_ten_toDigits (n := n)
  rw [Nat.ofDigitChars_eq_foldl] at h
  rw [digitsValue, natUnits, List.foldl_map]
  exact h

theorem natUnits_ne_nil (n : ℕ) : natUnits n ≠ [] := by
  rw [natUnits, Ne, List.map_eq_nil_iff]
  exact Nat.toDigits_ne_nil

theorem isDigit_of_mem_natUnits {u : ℕ} (h : u ∈ natUnits n) : isDigit u = true := by
  obtain ⟨c, hc, rfl⟩ := List.mem_map.mp h
  have hdigit : c.isDigit = true := Nat.isDigit_of_mem_toDigits (by omega) (by omega) hc
  simp only [Char.isDigit, Bool.and_eq_true, decide_eq_true_eq] at hdigit
  rw [isDigit, Bool.and_eq_true, decide_eq_true_eq, decide_eq_true_eq]
  exact ⟨UInt32.le_iff_toNat_le.mp hdigit.1, UInt32.le_iff_toNat_le.mp hdigit.2⟩

theorem natUnits_of_lt (h : n < 10) : natUnits n = [48 + n] := by
  have hchar : ∀ m < 10, (Nat.digitChar m).toNat = 48 + m := by decide
  rw [natUnits, Nat.toDigits_of_lt_base h, List.map_singleton, hchar n h]

theorem head?_natUnits_of_pos (h : 0 < n) : (natUnits n).head? ≠ some 48 := by
  induction n using Nat.strong_induction_on with
  | _ n ih =>
    by_cases hn : n < 10
    · rw [natUnits_of_lt hn, List.head?_cons, Ne, Option.some.injEq]
      omega
    · have hsplit : natUnits n = natUnits (n / 10) ++ [(Nat.digitChar (n % 10)).toNat] := by
        rw [natUnits, Nat.toDigits_of_base_le (by omega) (by omega), List.map_append]
        rfl
      rw [hsplit, List.head?_append_of_ne_nil _ (natUnits_ne_nil _)]
      exact ih (n / 10) (by omega) (by omega)

/-- Only zero starts with a zero. -/
theorem head?_natUnits (h : (natUnits n).head? = some 48) : natUnits n = [48] := by
  rcases Nat.eq_zero_or_pos n with rfl | hpos
  · rfl
  · exact absurd h (head?_natUnits_of_pos hpos)

theorem takeWhile_natUnits (h : Ends rest) : (natUnits n ++ rest).takeWhile isDigit = natUnits n := by
  have hrest : rest.takeWhile isDigit = [] := by
    cases rest with
    | nil => rfl
    | cons u rest => exact List.takeWhile_cons_of_neg (by simp [(h u rfl).1])
  rw [List.takeWhile_append_of_pos fun u hu => isDigit_of_mem_natUnits hu, hrest, List.append_nil]

theorem dropWhile_natUnits (h : Ends rest) : (natUnits n ++ rest).dropWhile isDigit = rest := by
  rw [List.dropWhile_append_of_pos fun u hu => isDigit_of_mem_natUnits hu]
  cases rest with
  | nil => rfl
  | cons u rest => exact List.dropWhile_cons_of_neg (by simp [(h u rfl).1])

theorem fraction_of_ends (h : Ends t) : fraction t = some ([], t) := by
  have hnot : t.head? ≠ some 46 := fun hhead => (h 46 hhead).2.1 rfl
  rw [fraction, if_neg hnot]

theorem exponent_of_ends (h : Ends t) : exponent t = some (none, t) := by
  have hnot : ¬ (t.head? = some 101 ∨ t.head? = some 69) := by
    rintro (hhead | hhead)
    · exact (h 101 hhead).2.2.1 rfl
    · exact (h 69 hhead).2.2.2 rfl
  rw [exponent, if_neg hnot]

theorem signed_intUnits (n : ℤ) (rest : Units) :
    signed (intUnits n ++ rest) = (decide (n < 0), natUnits n.natAbs ++ rest) := by
  rw [intUnits]
  by_cases hn : n < 0
  · rw [if_pos hn, decide_eq_true hn]
    rfl
  · have hhead : (natUnits n.natAbs ++ rest).head? ≠ some 45 := by
      rw [List.head?_append_of_ne_nil _ (natUnits_ne_nil _)]
      intro h
      exact absurd (isDigit_of_mem_natUnits (List.mem_of_mem_head? h)) (by decide)
    rw [if_neg hn, signed, if_neg hhead, decide_eq_false hn]

/-- **An integer is read as it was written.** -/
theorem number_intUnits (n : ℤ) (h : Ends rest) : number (intUnits n ++ rest) = some (.int n, rest) := by
  have hnumeral : ¬ (natUnits n.natAbs = [] ∨ ((natUnits n.natAbs).head? = some 48 ∧ natUnits n.natAbs ≠ [48])) := by
    rintro (hnil | ⟨hhead, hne⟩)
    · exact natUnits_ne_nil _ hnil
    · exact hne (head?_natUnits hhead)
  have hvalue : (if n < 0 then -(n.natAbs : ℤ) else n.natAbs) = n := by
    split_ifs <;> omega
  simp only [number, signed_intUnits, takeWhile_natUnits h, dropWhile_natUnits h, if_neg hnumeral, fraction_of_ends h,
    digitsValue_natUnits]
  simp only [Option.bind_eq_bind, Option.bind_some, exponent_of_ends h, and_self, if_true, decide_eq_true_eq, hvalue]
  rfl

end Numbers

/-! ### Values -/

/-- A string of ASCII characters. -/
def ascii (s : String) : Units := s.toList.map Char.toNat

@[simp] theorem ascii_inj {s t : String} : ascii s = ascii t ↔ s = t := by
  have hchar : Function.Injective Char.toNat := fun c d h => Char.toNat_inj.mp h
  rw [ascii, ascii, (List.map_injective_iff.mpr hchar).eq_iff, String.toList_inj]

section Encode
variable (double : ℚ → Units)

mutual

/-- A value as it is written, without white space; `double` is the text of a number with a fraction. -/
def encode : Json → Units
  | .null => ascii "null"
  | .bool true => ascii "true"
  | .bool false => ascii "false"
  | .int n => intUnits n
  | .dec q => double q
  | .str s => quote s
  | .arr [] => ascii "[]"
  | .arr (v :: vs) => 91 :: (encode v ++ encodeItems vs)
  | .obj [] => ascii "\x7b\x7d"
  | .obj ((k, v) :: ms) => 123 :: (quote k ++ 58 :: (encode v ++ encodeMembers ms))

/-- The items after the first, and the bracket. -/
def encodeItems : List Json → Units
  | [] => [93]
  | v :: vs => 44 :: (encode v ++ encodeItems vs)

/-- The members after the first, and the brace. -/
def encodeMembers : List (Units × Json) → Units
  | [] => [125]
  | (k, v) :: ms => 44 :: (quote k ++ 58 :: (encode v ++ encodeMembers ms))

end

end Encode

def isSpace (u : ℕ) : Bool := u == 32 || u == 9 || u == 10 || u == 13

/-- White space is passed over. -/
def skip (t : Units) : Units := t.dropWhile isSpace

/-- What follows a text at the front. -/
def after (pat t : Units) : Option Units := if pat <+: t then some (t.drop pat.length) else none

mutual

/-- A value at the front of a text, and the rest. -/
def value : ℕ → Units → Option (Json × Units)
  | 0, _ => none
  | fuel + 1, t =>
    match skip t with
    | [] => none
    | u :: t =>
      if u = 34 then (string t).map fun (s, rest) => (.str s, rest)
      else if u = 91 then
        if (skip t).head? = some 93 then some (.arr [], (skip t).tail)
        else do
          let (v, t) ← value fuel t
          let (vs, rest) ← items fuel t
          return (.arr (v :: vs), rest)
      else if u = 123 then
        if (skip t).head? = some 125 then some (.obj [], (skip t).tail)
        else do
          let (m, t) ← member fuel t
          let (ms, rest) ← members fuel t
          return (.obj (m :: ms), rest)
      else if u = 110 then (after (ascii "ull") t).map fun rest => (.null, rest)
      else if u = 116 then (after (ascii "rue") t).map fun rest => (.bool true, rest)
      else if u = 102 then (after (ascii "alse") t).map fun rest => (.bool false, rest)
      else number (u :: t)

/-- The items after the first. -/
def items : ℕ → Units → Option (List Json × Units)
  | 0, _ => none
  | fuel + 1, t =>
    match skip t with
    | [] => none
    | u :: t =>
      if u = 93 then some ([], t)
      else if u = 44 then do
        let (v, t) ← value fuel t
        let (vs, rest) ← items fuel t
        return (v :: vs, rest)
      else none

/-- A member of an object. -/
def member : ℕ → Units → Option ((Units × Json) × Units)
  | 0, _ => none
  | fuel + 1, t => do
    let t ← after [34] (skip t)
    let (k, t) ← string t
    let t ← after [58] (skip t)
    let (v, rest) ← value fuel t
    return ((k, v), rest)

/-- The members after the first. -/
def members : ℕ → Units → Option (List (Units × Json) × Units)
  | 0, _ => none
  | fuel + 1, t =>
    match skip t with
    | [] => none
    | u :: t =>
      if u = 125 then some ([], t)
      else if u = 44 then do
        let (m, t) ← member fuel t
        let (ms, rest) ← members fuel t
        return (m :: ms, rest)
      else none

end

/-- The value of a text, with nothing but white space after it. -/
def decode (t : Units) : Option Json := do
  let (v, rest) ← value t.length t
  if skip rest = [] then some v else none

/-! ### What is written is read -/

mutual

/-- No number in the value has a fraction. -/
def whole : Json → Bool
  | .null | .bool _ | .int _ | .str _ => true
  | .dec _ => false
  | .arr vs => wholeItems vs
  | .obj ms => wholeMembers ms

def wholeItems : List Json → Bool
  | [] => true
  | v :: vs => whole v && wholeItems vs

def wholeMembers : List (Units × Json) → Bool
  | [] => true
  | (_, v) :: ms => whole v && wholeMembers ms

end

theorem wholeItems_eq (vs : List Json) : wholeItems vs = vs.all whole := by
  induction vs with
  | nil => rfl
  | cons v vs ih => rw [wholeItems, List.all_cons, ih]

theorem wholeMembers_eq (ms : List (Units × Json)) : wholeMembers ms = ms.all fun m => whole m.2 := by
  induction ms with
  | nil => rfl
  | cons m ms ih => rw [wholeMembers, List.all_cons, ih]

section Roundtrip
variable {double : ℚ → Units} {fuel : ℕ} {v : Json} {t rest pat : Units}

theorem skip_cons {u : ℕ} (h : isSpace u = false) : skip (u :: t) = u :: t :=
  List.dropWhile_cons_of_neg (by simp [h])

theorem after_append : after pat (pat ++ t) = some t := by
  rw [after, if_pos (List.prefix_append pat t), List.drop_left]

/-- A text that starts with a code unit as values start with. -/
def Starts (t : Units) : Prop := ∃ u s, t = u :: s ∧ isSpace u = false ∧ u ≠ 93 ∧ u ≠ 125

theorem starts_append (h : Starts t) (rest : Units) : Starts (t ++ rest) := by
  obtain ⟨u, s, rfl, hu⟩ := h
  exact ⟨u, s ++ rest, rfl, hu⟩

theorem Starts.skip (h : Starts t) : skip t = t := by
  obtain ⟨u, s, rfl, hspace, -⟩ := h
  exact skip_cons hspace

theorem Starts.head?_ne (h : Starts t) : t.head? ≠ some 93 ∧ t.head? ≠ some 125 := by
  obtain ⟨u, s, rfl, -, h93, h125⟩ := h
  rw [List.head?_cons]
  exact ⟨fun heq => h93 (Option.some.inj heq), fun heq => h125 (Option.some.inj heq)⟩

/-- An integer starts with a minus sign or a digit. -/
theorem head_intUnits (n : ℤ) : ∃ u s, intUnits n = u :: s ∧ (u = 45 ∨ isDigit u = true) := by
  obtain ⟨u, s, hu⟩ := List.exists_cons_of_ne_nil (natUnits_ne_nil n.natAbs)
  rw [intUnits]
  split_ifs
  · exact ⟨45, _, rfl, Or.inl rfl⟩
  · exact ⟨u, s, hu, Or.inr (isDigit_of_mem_natUnits (hu ▸ List.mem_cons_self))⟩

theorem starts_quote (s rest : Units) : Starts (quote s ++ rest) := ⟨34, _, rfl, by decide⟩

theorem starts_encode (hv : whole v = true) : Starts (encode double v) := by
  have hfixed : ∀ u s, isSpace u = false → u ≠ 93 → u ≠ 125 → Starts (u :: s) := fun u s h1 h2 h3 =>
    ⟨u, s, rfl, h1, h2, h3⟩
  match v with
  | .null => exact hfixed 110 _ (by decide) (by decide) (by decide)
  | .bool true => exact hfixed 116 _ (by decide) (by decide) (by decide)
  | .bool false => exact hfixed 102 _ (by decide) (by decide) (by decide)
  | .str s => exact hfixed 34 _ (by decide) (by decide) (by decide)
  | .arr [] | .arr (v :: vs) => exact hfixed 91 _ (by decide) (by decide) (by decide)
  | .obj [] | .obj ((k, v) :: ms) => exact hfixed 123 _ (by decide) (by decide) (by decide)
  | .dec q => cases hv
  | .int n =>
    obtain ⟨u, s, hu, hhead⟩ := head_intUnits n
    refine ⟨u, s, hu, ?_⟩
    rcases hhead with rfl | hdigit
    · decide
    · simp only [isDigit, Bool.and_eq_true, decide_eq_true_eq] at hdigit
      simp [isSpace]
      omega

theorem string_quote (s rest : Units) : after [34] (quote s ++ rest) = some (content none s ++ 34 :: rest) := by
  rw [show quote s ++ rest = [34] ++ (content none s ++ 34 :: rest) by simp [quote], after_append]

/-- A value that starts as an array does. -/
theorem value_bracket (h : Starts t) : value (fuel + 1) (91 :: t) = do
    let (v, t) ← value fuel t
    let (vs, rest) ← items fuel t
    return (.arr (v :: vs), rest) := by
  rw [value, skip_cons (by decide)]
  simp [h.skip, h.head?_ne.1]

/-- A value that starts as an object does. -/
theorem value_brace (h : Starts t) : value (fuel + 1) (123 :: t) = do
    let (m, t) ← member fuel t
    let (ms, rest) ← members fuel t
    return (.obj (m :: ms), rest) := by
  rw [value, skip_cons (by decide)]
  simp [h.skip, h.head?_ne.2]

theorem value_numeral {u : ℕ} (h : u = 45 ∨ isDigit u = true) : value (fuel + 1) (u :: t) = number (u :: t) := by
  have hu : u = 45 ∨ 48 ≤ u ∧ u ≤ 57 := by simpa [isDigit] using h
  have hspace : isSpace u = false := by
    simp only [isSpace, Bool.or_eq_false_iff, beq_eq_false_iff_ne]
    omega
  rw [value, skip_cons hspace]
  dsimp only
  rw [if_neg (by omega), if_neg (by omega), if_neg (by omega), if_neg (by omega), if_neg (by omega), if_neg (by omega)]

/-- Brackets, braces and commas end a number. -/
theorem ends_cons {u : ℕ} (h : u = 44 ∨ u = 93 ∨ u = 125) : Ends (u :: t) := by
  rintro _ ⟨⟩
  rcases h with rfl | rfl | rfl <;> decide

theorem ends_encodeItems (vs : List Json) : Ends (encodeItems double vs ++ rest) := by
  cases vs with
  | nil => exact ends_cons (by decide)
  | cons v vs => exact ends_cons (by decide)

theorem ends_encodeMembers (ms : List (Units × Json)) : Ends (encodeMembers double ms ++ rest) := by
  cases ms with
  | nil => exact ends_cons (by decide)
  | cons m ms =>
    obtain ⟨k, v⟩ := m
    exact ends_cons (by decide)

/-- A member is read, if its value is. -/
theorem member_encode {k : Units} (hlen : (encode double v).length < fuel)
    (h : ∀ {fuel}, (encode double v).length ≤ fuel → value fuel (encode double v ++ rest) = some (v, rest)) :
    member fuel (quote k ++ 58 :: (encode double v ++ rest)) = some ((k, v), rest) := by
  obtain ⟨f, rfl⟩ : ∃ f, fuel = f + 1 := ⟨fuel - 1, by omega⟩
  have hvalue : value f (encode double v ++ rest) = some (v, rest) := h (by omega)
  have hquote : skip (quote k ++ 58 :: (encode double v ++ rest)) = quote k ++ 58 :: (encode double v ++ rest) :=
    skip_cons (by decide)
  have hcolon : skip (58 :: (encode double v ++ rest)) = [58] ++ (encode double v ++ rest) := skip_cons (by decide)
  rw [member, hquote, string_quote]
  simp only [Option.bind_eq_bind, Option.bind_some, string_content, hcolon, after_append, hvalue]
  rfl

mutual

/-- **A value is read as it was written**, whatever ends it. -/
theorem value_encode : ∀ (v : Json) {fuel : ℕ} {rest : Units}, whole v = true → (encode double v).length ≤ fuel →
    Ends rest → value fuel (encode double v ++ rest) = some (v, rest)
  | .null, fuel + 1, rest, _, _, _ => by
    rw [encode, show ascii "null" ++ rest = 110 :: (ascii "ull" ++ rest) by rfl, value, skip_cons (by decide)]
    simp [after_append]
  | v, 0, rest, hv, hlen, _ => by
    obtain ⟨u, s, hu, -⟩ : Starts (encode double v) := starts_encode hv
    rw [hu, List.length_cons] at hlen
    omega
  | .bool true, fuel + 1, rest, _, _, _ => by
    rw [encode, show ascii "true" ++ rest = 116 :: (ascii "rue" ++ rest) by rfl, value, skip_cons (by decide)]
    simp [after_append]
  | .bool false, fuel + 1, rest, _, _, _ => by
    rw [encode, show ascii "false" ++ rest = 102 :: (ascii "alse" ++ rest) by rfl, value, skip_cons (by decide)]
    simp [after_append]
  | .int n, fuel + 1, rest, _, _, hrest => by
    obtain ⟨u, s, hu, hhead⟩ := head_intUnits n
    rw [encode, hu, List.cons_append, value_numeral hhead, ← List.cons_append, ← hu, number_intUnits n hrest]
  | .str s, fuel + 1, rest, _, _, _ => by
    rw [encode, show quote s ++ rest = 34 :: (content none s ++ 34 :: rest) by simp [quote], value,
      skip_cons (by decide)]
    simp [string_content]
  | .arr [], fuel + 1, rest, _, _, _ => by
    rw [encode, show ascii "[]" ++ rest = 91 :: 93 :: rest by rfl, value, skip_cons (by decide)]
    simp [skip_cons (show isSpace 93 = false by decide)]
  | .arr (v :: vs), fuel + 1, rest, hv, hlen, hrest => by
    rw [whole, wholeItems, Bool.and_eq_true] at hv
    rw [encode, List.length_cons, List.length_append] at hlen
    rw [encode, List.cons_append, List.append_assoc, value_bracket (starts_append (starts_encode hv.1) _),
      value_encode v hv.1 (by omega) (ends_encodeItems vs)]
    simp only [Option.bind_eq_bind, Option.bind_some, items_encode vs hv.2 (show _ ≤ fuel by omega)]
    rfl
  | .obj [], fuel + 1, rest, _, _, _ => by
    rw [encode, show ascii "\x7b\x7d" ++ rest = 123 :: 125 :: rest by rfl, value, skip_cons (by decide)]
    simp [skip_cons (show isSpace 125 = false by decide)]
  | .obj ((k, v) :: ms), fuel + 1, rest, hv, hlen, hrest => by
    rw [whole, wholeMembers, Bool.and_eq_true] at hv
    rw [encode, List.length_cons, List.length_append, List.length_cons, List.length_append] at hlen
    have hmember : member fuel (quote k ++ 58 :: (encode double v ++ (encodeMembers double ms ++ rest))) =
        some ((k, v), encodeMembers double ms ++ rest) :=
      member_encode (by omega) fun hf => value_encode v hv.1 hf (ends_encodeMembers ms)
    rw [encode, List.cons_append, List.append_assoc, List.cons_append, List.append_assoc,
      value_brace (starts_quote k _), hmember]
    simp only [Option.bind_eq_bind, Option.bind_some, members_encode ms hv.2 (show _ ≤ fuel by omega)]
    rfl

/-- So are the items after the first. -/
theorem items_encode : ∀ (vs : List Json) {fuel : ℕ} {rest : Units}, wholeItems vs = true →
    (encodeItems double vs).length ≤ fuel → items fuel (encodeItems double vs ++ rest) = some (vs, rest)
  | [], 0, rest, _, hlen => by
    rw [encodeItems, List.length_singleton] at hlen
    omega
  | v :: vs, 0, rest, _, hlen => by
    rw [encodeItems, List.length_cons] at hlen
    omega
  | [], fuel + 1, rest, _, _ => by
    rw [encodeItems, List.singleton_append, items, skip_cons (by decide)]
    rfl
  | v :: vs, fuel + 1, rest, hv, hlen => by
    rw [wholeItems, Bool.and_eq_true] at hv
    rw [encodeItems, List.length_cons, List.length_append] at hlen
    rw [encodeItems, List.cons_append, List.append_assoc, items, skip_cons (by decide)]
    simp only [value_encode v hv.1 (show _ ≤ fuel by omega) (ends_encodeItems vs), Option.bind_eq_bind,
      Option.bind_some, items_encode vs hv.2 (show _ ≤ fuel by omega)]
    rfl

/-- So are the members after the first. -/
theorem members_encode : ∀ (ms : List (Units × Json)) {fuel : ℕ} {rest : Units}, wholeMembers ms = true →
    (encodeMembers double ms).length ≤ fuel → members fuel (encodeMembers double ms ++ rest) = some (ms, rest)
  | [], 0, rest, _, hlen => by
    rw [encodeMembers, List.length_singleton] at hlen
    omega
  | (k, v) :: ms, 0, rest, _, hlen => by
    rw [encodeMembers, List.length_cons] at hlen
    omega
  | [], fuel + 1, rest, _, _ => by
    rw [encodeMembers, List.singleton_append, members, skip_cons (by decide)]
    rfl
  | (k, v) :: ms, fuel + 1, rest, hv, hlen => by
    rw [wholeMembers, Bool.and_eq_true] at hv
    rw [encodeMembers, List.length_cons, List.length_append, List.length_cons, List.length_append] at hlen
    have hmember : member fuel (quote k ++ 58 :: (encode double v ++ (encodeMembers double ms ++ rest))) =
        some ((k, v), encodeMembers double ms ++ rest) :=
      member_encode (by omega) fun hf => value_encode v hv.1 hf (ends_encodeMembers ms)
    rw [encodeMembers, List.cons_append, List.append_assoc, List.cons_append, List.append_assoc, members,
      skip_cons (by decide)]
    simp only [hmember, Option.bind_eq_bind, Option.bind_some, members_encode ms hv.2 (show _ ≤ fuel by omega)]
    rfl

end

/-- **A text that was written stands for the value it was written for.** -/
theorem decode_encode (hv : whole v = true) : decode (encode double v) = some v := by
  have hends : Ends [] := fun _ h => by cases h
  have h : value (encode double v).length (encode double v ++ []) = some (v, []) :=
    value_encode v hv (Nat.le_refl _) hends
  rw [List.append_nil] at h
  rw [decode, h]
  rfl

end Roundtrip

/-! ### Fuel -/

section Fuel
variable {α β : Type} {n : ℕ} {t : Units}

/-- A reader leaves no more than `n` code units. -/
def Leaves (n : ℕ) (read : Option (α × Units)) : Prop := ∀ p ∈ read, p.2.length ≤ n

theorem leaves_none : Leaves n (none : Option (α × Units)) := by
  rintro p ⟨⟩

theorem leaves_some {a : α} (h : t.length ≤ n) : Leaves n (some (a, t)) := by
  rintro p ⟨⟩
  exact h

theorem Leaves.mono {m : ℕ} {read : Option (α × Units)} (h : Leaves n read) (hle : n ≤ m) : Leaves m read :=
  fun p hp => (h p hp).trans hle

theorem leaves_bind {x : Option α} {f : α → Option (β × Units)} (h : ∀ a ∈ x, Leaves n (f a)) :
    Leaves n (x >>= f) := by
  intro q hq
  obtain ⟨a, ha, hq⟩ := Option.bind_eq_some_iff.mp hq
  exact h a ha q hq

theorem leaves_map {x : Option α} {f : α → β × Units} (h : ∀ a ∈ x, (f a).2.length ≤ n) : Leaves n (x.map f) := by
  intro q hq
  obtain ⟨a, ha, rfl⟩ := Option.map_eq_some_iff.mp hq
  exact h a ha

theorem length_skip (t : Units) : (skip t).length ≤ t.length := (List.dropWhile_sublist _).length_le

theorem length_after {pat rest : Units} (h : after pat t = some rest) : rest.length + pat.length ≤ t.length := by
  rw [after] at h
  split_ifs at h with hprefix
  obtain rfl := Option.some.inj h
  have hle : pat.length ≤ t.length := hprefix.length_le
  rw [List.length_drop]
  omega

theorem leaves_string (t : Units) : Leaves t.length (string t) := by
  have hcons : ∀ (u : ℕ) {s : Units} {m : ℕ}, Leaves s.length (string s) → s.length ≤ m →
      Leaves m (consUnit u (string s)) := fun u s m ih hle =>
    leaves_bind fun p hp => leaves_some ((ih p hp).trans hle)
  fun_induction string t with
  | case1 | case3 | case6 => exact leaves_none
  | case2 t => exact leaves_some (Nat.le_succ _)
  | case4 a b c d t _ _ ih => exact leaves_bind fun v _ => hcons v ih (by simp only [List.length_cons]; omega)
  | case5 e t _ _ _ ih => exact leaves_bind fun v _ => hcons v ih (by simp only [List.length_cons]; omega)
  | case7 u t _ _ _ ih => exact hcons u ih (Nat.le_succ _)

theorem leaves_fraction (t : Units) : Leaves t.length (fraction t) := by
  have htail : (t.tail.dropWhile isDigit).length ≤ t.length :=
    ((List.dropWhile_sublist _).trans (List.tail_sublist t)).length_le
  rw [fraction]
  split_ifs
  · exact leaves_none
  · exact leaves_some htail
  · exact leaves_some (Nat.le_refl _)

theorem length_signed (t : Units) : (signed t).2.length ≤ t.length := by
  rw [signed]
  split_ifs
  · exact (List.tail_sublist t).length_le
  · exact Nat.le_refl _

theorem leaves_exponent (t : Units) : Leaves t.length (exponent t) := by
  have hsign : (if t.tail.head? = some 43 then (false, t.tail.tail) else signed t.tail).2.length ≤ t.length := by
    split_ifs
    · exact ((List.tail_sublist _).trans (List.tail_sublist t)).length_le
    · exact (length_signed _).trans (List.tail_sublist t).length_le
  rw [exponent]
  generalize (if t.tail.head? = some 43 then (false, t.tail.tail) else signed t.tail) = p at hsign ⊢
  split
  · dsimp only
    split
    · exact leaves_none
    · exact leaves_some ((List.dropWhile_sublist _).length_le.trans hsign)
  · exact leaves_some (Nat.le_refl _)

theorem leaves_number (t : Units) : Leaves t.length (number t) := by
  have hsign := length_signed t
  rw [number]
  generalize signed t = p at hsign ⊢
  dsimp only
  split
  · exact leaves_none
  · refine leaves_bind fun q hq => leaves_bind fun r hr => ?_
    have hfraction : q.2.length ≤ p.2.length := (leaves_fraction _ q hq).trans (List.dropWhile_sublist _).length_le
    have hexponent : r.2.length ≤ q.2.length := leaves_exponent _ r hr
    split
    · exact leaves_some (by omega)
    · exact leaves_some (by omega)

theorem length_of_skip {u : ℕ} {s : Units} (h : skip t = u :: s) : s.length < t.length := by
  have hskip := length_skip t
  rw [h, List.length_cons] at hskip
  omega

/-- What follows a name and its colon. -/
theorem length_of_name {a b : Units} {p : Units × Units} (ha : after [34] (skip t) = some a) (hp : string a = some p)
    (hb : after [58] (skip p.2) = some b) : b.length < t.length := by
  have hquote : a.length + 1 ≤ (skip t).length := length_after ha
  have hname : p.2.length ≤ a.length := leaves_string a p hp
  have hcolon : b.length + 1 ≤ (skip p.2).length := length_after hb
  have hskip := length_skip t
  have hskip' := length_skip p.2
  omega

/-- Two readers, one after the other. -/
theorem leaves_two {γ : Type} {x : Option (α × Units)} {f : Units → Option (β × Units)} {g : α → β → γ} {s : Units}
    (hx : Leaves s.length x) (hf : ∀ t, Leaves t.length (f t)) (hle : s.length ≤ n) :
    Leaves n (x >>= fun p => f p.2 >>= fun q => some (g p.1 q.1, q.2)) := by
  refine leaves_bind fun p hp => leaves_bind fun q hq => leaves_some ?_
  have hfirst : p.2.length ≤ s.length := hx p hp
  have hsecond : q.2.length ≤ p.2.length := hf p.2 q hq
  omega

section Step
variable {fuel : ℕ} (hvalue : ∀ t, Leaves t.length (value fuel t)) (hitems : ∀ t, Leaves t.length (items fuel t))
  (hmember : ∀ t, Leaves t.length (member fuel t)) (hmembers : ∀ t, Leaves t.length (members fuel t))

include hvalue hitems hmember hmembers in
theorem leaves_value_step (t : Units) : Leaves t.length (value (fuel + 1) t) := by
  rw [value]
  cases hs : skip t with
  | nil => exact leaves_none
  | cons u s =>
    have hlen := length_of_skip hs
    have htail : (skip s).tail.length ≤ s.length := (List.tail_sublist _).length_le.trans (length_skip s)
    dsimp only
    split_ifs
    · exact leaves_map fun p hp => (leaves_string s p hp).trans hlen.le
    · exact leaves_some (htail.trans hlen.le)
    · exact leaves_two (g := fun v vs => Json.arr (v :: vs)) (hvalue s) hitems hlen.le
    · exact leaves_some (htail.trans hlen.le)
    · exact leaves_two (g := fun m ms => Json.obj (m :: ms)) (hmember s) hmembers hlen.le
    · exact leaves_map fun rest h => (Nat.le_of_add_right_le (length_after h)).trans hlen.le
    · exact leaves_map fun rest h => (Nat.le_of_add_right_le (length_after h)).trans hlen.le
    · exact leaves_map fun rest h => (Nat.le_of_add_right_le (length_after h)).trans hlen.le
    · exact (leaves_number (u :: s)).mono hlen

include hvalue hitems in
theorem leaves_items_step (t : Units) : Leaves t.length (items (fuel + 1) t) := by
  rw [items]
  cases hs : skip t with
  | nil => exact leaves_none
  | cons u s =>
    have hlen := length_of_skip hs
    dsimp only
    split_ifs
    · exact leaves_some hlen.le
    · exact leaves_two (hvalue s) hitems hlen.le
    · exact leaves_none

include hvalue in
theorem leaves_member_step (t : Units) : Leaves t.length (member (fuel + 1) t) := by
  rw [member]
  refine leaves_bind fun a ha => leaves_bind fun p hp => leaves_bind fun b hb => leaves_bind fun q hq =>
    leaves_some ?_
  have hname : b.length < t.length := length_of_name ha hp hb
  have hrest : q.2.length ≤ b.length := hvalue b q hq
  omega

include hmember hmembers in
theorem leaves_members_step (t : Units) : Leaves t.length (members (fuel + 1) t) := by
  rw [members]
  cases hs : skip t with
  | nil => exact leaves_none
  | cons u s =>
    have hlen := length_of_skip hs
    dsimp only
    split_ifs
    · exact leaves_some hlen.le
    · exact leaves_two (hmember s) hmembers hlen.le
    · exact leaves_none

end Step

/-- Readers leave no more than they were given. -/
theorem leaves_readers (fuel : ℕ) : (∀ t, Leaves t.length (value fuel t)) ∧ (∀ t, Leaves t.length (items fuel t)) ∧
    (∀ t, Leaves t.length (member fuel t)) ∧ ∀ t, Leaves t.length (members fuel t) := by
  induction fuel with
  | zero => exact ⟨fun t => leaves_none, fun t => leaves_none, fun t => leaves_none, fun t => leaves_none⟩
  | succ fuel ih =>
    obtain ⟨hvalue, hitems, hmember, hmembers⟩ := ih
    exact ⟨leaves_value_step hvalue hitems hmember hmembers, leaves_items_step hvalue hitems,
      leaves_member_step hvalue, leaves_members_step hmember hmembers⟩

theorem leaves_value {fuel : ℕ} (t : Units) : Leaves t.length (value fuel t) := (leaves_readers fuel).1 t

theorem leaves_member {fuel : ℕ} (t : Units) : Leaves t.length (member fuel t) := (leaves_readers fuel).2.2.1 t

/-- Two readers that agree on what is short enough, one after the other. -/
theorem bind_two_congr {γ : Type} {x x' : Option (α × Units)} {f f' : Units → Option (β × Units)} {g : α → β → γ}
    (hx : x = x') (hleaves : Leaves n x) (hf : ∀ t, t.length ≤ n → f t = f' t) :
    (x >>= fun p => f p.2 >>= fun q => some (g p.1 q.1, q.2)) =
      (x' >>= fun p => f' p.2 >>= fun q => some (g p.1 q.1, q.2)) := by
  subst hx
  exact Option.bind_congr fun p hp => by rw [hf p.2 (hleaves p hp)]

section Succ
variable {fuel : ℕ} (hvalue : ∀ t : Units, t.length ≤ fuel → value fuel t = value (fuel + 1) t)
  (hitems : ∀ t : Units, t.length ≤ fuel → items fuel t = items (fuel + 1) t)
  (hmember : ∀ t : Units, t.length ≤ fuel → member fuel t = member (fuel + 1) t)
  (hmembers : ∀ t : Units, t.length ≤ fuel → members fuel t = members (fuel + 1) t)

include hvalue hitems hmember hmembers in
theorem value_succ_step (ht : t.length ≤ fuel + 1) : value (fuel + 1) t = value (fuel + 2) t := by
  rw [value, value]
  cases hs : skip t with
  | nil => rfl
  | cons u s =>
    have hlen : s.length ≤ fuel := by have := length_of_skip hs; omega
    have hfirst : Leaves fuel (value fuel s) := (leaves_value s).mono hlen
    have hname : Leaves fuel (member fuel s) := (leaves_member s).mono hlen
    dsimp only
    split_ifs
    · rfl
    · rfl
    · exact bind_two_congr (g := fun v vs => Json.arr (v :: vs)) (hvalue s hlen) hfirst hitems
    · rfl
    · exact bind_two_congr (g := fun m ms => Json.obj (m :: ms)) (hmember s hlen) hname hmembers
    · rfl
    · rfl
    · rfl
    · rfl

include hvalue hitems in
theorem items_succ_step (ht : t.length ≤ fuel + 1) : items (fuel + 1) t = items (fuel + 2) t := by
  rw [items, items]
  cases hs : skip t with
  | nil => rfl
  | cons u s =>
    have hlen : s.length ≤ fuel := by have := length_of_skip hs; omega
    dsimp only
    split_ifs
    · rfl
    · exact bind_two_congr (hvalue s hlen) ((leaves_value s).mono hlen) hitems
    · rfl

include hvalue in
theorem member_succ_step (ht : t.length ≤ fuel + 1) : member (fuel + 1) t = member (fuel + 2) t := by
  rw [member, member]
  refine Option.bind_congr fun a ha => Option.bind_congr fun p hp => Option.bind_congr fun b hb => ?_
  have hname : b.length < t.length := length_of_name ha hp hb
  rw [hvalue b (by omega)]

include hmember hmembers in
theorem members_succ_step (ht : t.length ≤ fuel + 1) : members (fuel + 1) t = members (fuel + 2) t := by
  rw [members, members]
  cases hs : skip t with
  | nil => rfl
  | cons u s =>
    have hlen : s.length ≤ fuel := by have := length_of_skip hs; omega
    dsimp only
    split_ifs
    · rfl
    · exact bind_two_congr (hmember s hlen) ((leaves_member s).mono hlen) hmembers
    · rfl

end Succ

theorem readers_succ (fuel : ℕ) : (∀ t : Units, t.length ≤ fuel → value fuel t = value (fuel + 1) t) ∧
    (∀ t : Units, t.length ≤ fuel → items fuel t = items (fuel + 1) t) ∧
    (∀ t : Units, t.length ≤ fuel → member fuel t = member (fuel + 1) t) ∧
    ∀ t : Units, t.length ≤ fuel → members fuel t = members (fuel + 1) t := by
  induction fuel with
  | zero =>
    refine ⟨?_, ?_, ?_, ?_⟩ <;> intro t ht <;> obtain rfl := List.length_eq_zero_iff.mp (Nat.le_zero.mp ht) <;> rfl
  | succ fuel ih =>
    obtain ⟨hvalue, hitems, hmember, hmembers⟩ := ih
    exact ⟨fun t => value_succ_step hvalue hitems hmember hmembers, fun t => items_succ_step hvalue hitems,
      fun t => member_succ_step hvalue, fun t => members_succ_step hmember hmembers⟩

/-- **Fuel is no restriction**: what is read with as much as the text is long is read with more. -/
theorem value_of_length_le {fuel : ℕ} (h : t.length ≤ fuel) : value fuel t = value t.length t := by
  induction fuel, h using Nat.le_induction with
  | base => rfl
  | succ fuel hle ih => rw [← (readers_succ fuel).1 t hle, ih]

end Fuel
end Notely.Lib.JsonText
