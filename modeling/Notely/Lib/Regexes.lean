import Mathlib.Tactic.Common
import Notely.Lib.Strings

/-! # Regular expressions that are matched by backtracking

Expressions whose repetitions are of a class of characters. An expression has several ways to match the beginning of a
text, the preferred one first: a repetition takes as much as it can, an option is taken if it can be, and the first
alternative is tried first. What a group matched is captured under its number.

* `ways_append`: a way to match takes a beginning of the text.
* `mem_ways_group_seq`: a group and what follows it.
* `allMatches`: the matches in a text from left to right. `placed_allMatches`: they stand there, one after the other. -/

namespace Notely.Lib.Regexes

open Notely.Lib.Strings

/-- An expression. -/
inductive Regex
  /-- One character of the class. -/
  | one (p : Char → Bool)
  /-- Characters of the class, at least and at most so many. -/
  | many (p : Char → Bool) (min : ℕ) (max : Option ℕ)
  /-- The end of the text. -/
  | stop
  | seq (r t : Regex)
  | alt (r t : Regex)
  | opt (r : Regex)
  | group (i : ℕ) (r : Regex)

/-- A way to match: what is matched, what its groups captured, and what is left of the text. -/
structure Way where
  matched : Text
  captures : List (ℕ × Text)
  rest : Text
  deriving DecidableEq

/-- `min` to `max`, the greatest first. -/
def down (min max : ℕ) : List ℕ := ((List.range (max + 1)).filter (min ≤ ·)).reverse

namespace Regex

/-- The ways to match the beginning of a text, the preferred one first. -/
def ways : Regex → Text → List Way
  | one _, [] => []
  | one p, c :: s => if p c then [⟨[c], [], s⟩] else []
  | many p min max, s =>
    let longest := (s.takeWhile p).length
    (down min (max.elim longest (Nat.min longest))).map fun k => ⟨s.take k, [], s.drop k⟩
  | stop, s => if s = [] then [⟨[], [], []⟩] else []
  | seq r t, s => (r.ways s).flatMap fun w =>
      (t.ways w.rest).map fun v => ⟨w.matched ++ v.matched, w.captures ++ v.captures, v.rest⟩
  | alt r t, s => r.ways s ++ t.ways s
  | opt r, s => r.ways s ++ [⟨[], [], s⟩]
  | group i r, s => (r.ways s).map fun w => { w with captures := (i, w.matched) :: w.captures }

/-- `firstMatch` of an expression that starts with `^`. -/
def first (r : Regex) (s : Text) : Option Way := (r.ways s).head?

/-- The expression has no group. -/
def plain : Regex → Bool
  | one _ | many _ _ _ | stop => true
  | seq r t | alt r t => r.plain && t.plain
  | opt r => r.plain
  | group _ _ => false

end Regex

section Ways
variable {r t : Regex} {s : Text} {w : Way} {i : ℕ}

theorem mem_ways_seq : w ∈ (r.seq t).ways s ↔ ∃ u ∈ r.ways s, ∃ v ∈ t.ways u.rest,
    w = ⟨u.matched ++ v.matched, u.captures ++ v.captures, v.rest⟩ := by
  simp only [Regex.ways, List.mem_flatMap, List.mem_map, eq_comm]

theorem mem_ways_group :
    w ∈ (r.group i).ways s ↔ ∃ u ∈ r.ways s, w = ⟨u.matched, (i, u.matched) :: u.captures, u.rest⟩ := by
  simp only [Regex.ways, List.mem_map, eq_comm]

theorem mem_ways_opt : w ∈ r.opt.ways s ↔ w ∈ r.ways s ∨ w = ⟨[], [], s⟩ := by
  simp [Regex.ways]

theorem mem_ways_stop : w ∈ Regex.stop.ways s ↔ s = [] ∧ w = ⟨[], [], []⟩ := by
  simp only [Regex.ways]
  split_ifs with h
  · simp [h]
  · simp [h]

/-- **A way to match takes a beginning of the text.** -/
theorem ways_append (h : w ∈ r.ways s) : w.matched ++ w.rest = s := by
  induction r generalizing s w with
  | one p =>
    cases s with
    | nil => exact absurd h List.not_mem_nil
    | cons c s =>
      rw [Regex.ways] at h
      split_ifs at h with hc
      · rw [List.mem_singleton.mp h]
        rfl
      · exact absurd h List.not_mem_nil
  | many p min max =>
    obtain ⟨k, -, rfl⟩ := List.mem_map.mp h
    exact List.take_append_drop k s
  | stop =>
    obtain ⟨rfl, rfl⟩ := mem_ways_stop.mp h
    rfl
  | seq r t hr ht =>
    obtain ⟨u, hu, v, hv, rfl⟩ := mem_ways_seq.mp h
    show u.matched ++ v.matched ++ v.rest = s
    rw [List.append_assoc, ht hv, hr hu]
  | alt r t hr ht =>
    rcases List.mem_append.mp h with h | h
    · exact hr h
    · exact ht h
  | opt r hr =>
    rcases mem_ways_opt.mp h with h | rfl
    · exact hr h
    · rfl
  | group i r hr =>
    obtain ⟨u, hu, rfl⟩ := mem_ways_group.mp h
    show u.matched ++ u.rest = s
    exact hr hu

theorem captures_of_plain (hr : r.plain = true) (h : w ∈ r.ways s) : w.captures = [] := by
  induction r generalizing s w with
  | one p =>
    cases s with
    | nil => exact absurd h List.not_mem_nil
    | cons c s =>
      rw [Regex.ways] at h
      split_ifs at h with hc
      · rw [List.mem_singleton.mp h]
      · exact absurd h List.not_mem_nil
  | many p min max =>
    obtain ⟨k, -, rfl⟩ := List.mem_map.mp h
    rfl
  | stop =>
    obtain ⟨-, rfl⟩ := mem_ways_stop.mp h
    rfl
  | seq r t ihr iht =>
    rw [Regex.plain, Bool.and_eq_true] at hr
    obtain ⟨u, hu, v, hv, rfl⟩ := mem_ways_seq.mp h
    show u.captures ++ v.captures = []
    rw [ihr hr.1 hu, iht hr.2 hv, List.append_nil]
  | alt r t ihr iht =>
    rw [Regex.plain, Bool.and_eq_true] at hr
    rcases List.mem_append.mp h with h | h
    · exact ihr hr.1 h
    · exact iht hr.2 h
  | opt r ihr =>
    rcases mem_ways_opt.mp h with h | rfl
    · exact ihr hr h
    · rfl
  | group i r ihr => exact absurd hr (by simp [Regex.plain])

/-- A group without others within, and what follows it. -/
theorem mem_ways_group_seq (hr : r.plain = true) (h : w ∈ ((r.group i).seq t).ways s) :
    ∃ a rest, s = a ++ rest ∧ ∃ v ∈ t.ways rest, w = ⟨a ++ v.matched, (i, a) :: v.captures, v.rest⟩ := by
  obtain ⟨u, hu, v, hv, rfl⟩ := mem_ways_seq.mp h
  obtain ⟨u, hu', rfl⟩ := mem_ways_group.mp hu
  refine ⟨u.matched, u.rest, (ways_append hu').symm, v, hv, ?_⟩
  rw [captures_of_plain hr hu']
  rfl

end Ways

/-! ### The matches in a text -/

/-- A match in a text. -/
structure Found where
  start : ℕ
  text : Text
  deriving DecidableEq

/-- Where the match ends. -/
def Found.stop (m : Found) : ℕ := m.start + m.text.length

/-- The matches from a position on, with some characters of the last one still to pass over. After an empty match the
search goes on one character later. -/
def matchesFrom (r : Regex) : ℕ → ℕ → Text → List Found
  | skip + 1, pos, _ :: s => matchesFrom r skip (pos + 1) s
  | 0, pos, c :: s =>
    match r.first (c :: s) with
    | some w => ⟨pos, w.matched⟩ :: matchesFrom r (w.matched.length - 1) (pos + 1) s
    | none => matchesFrom r 0 (pos + 1) s
  | _, pos, [] =>
    match r.first [] with
    | some w => [⟨pos, w.matched⟩]
    | none => []

/-- `allMatches`. -/
def allMatches (r : Regex) (s : Text) : List Found := matchesFrom r 0 0 s

/-- The matches stand in the text, one after the other, from a position on. -/
def Placed (s : Text) : ℕ → List Found → Prop
  | _, [] => True
  | index, m :: ms => index ≤ m.start ∧ (∃ rest, s.drop m.start = m.text ++ rest) ∧ Placed s m.stop ms

section Matches
variable {r : Regex} {s t : Text} {w : Way}

theorem first_append (h : r.first s = some w) : w.matched ++ w.rest = s := ways_append (List.mem_of_mem_head? h)

theorem Placed.mono {ms : List Found} {i j : ℕ} (h : Placed s j ms) (hle : i ≤ j) : Placed s i ms := by
  cases ms with
  | nil => trivial
  | cons m ms => exact ⟨hle.trans h.1, h.2⟩

theorem placed_matchesFrom {skip pos : ℕ} (hdrop : s.drop pos = t) (hskip : skip ≤ t.length) :
    Placed s (pos + skip) (matchesFrom r skip pos t) := by
  induction t generalizing skip pos with
  | nil =>
    have hzero : skip = 0 := Nat.le_zero.mp hskip
    subst hzero
    unfold matchesFrom
    cases hfirst : r.first [] with
    | none => trivial
    | some w => exact ⟨le_refl _, ⟨w.rest, by rw [hdrop]; exact (first_append hfirst).symm⟩, trivial⟩
  | cons c t ih =>
    have hnext : s.drop (pos + 1) = t := by
      rw [← List.tail_drop, hdrop]
      rfl
    cases skip with
    | succ skip =>
      have h := ih hnext (Nat.le_of_succ_le_succ hskip)
      rw [matchesFrom]
      exact h.mono (by omega)
    | zero =>
      rw [matchesFrom]
      cases hfirst : r.first (c :: t) with
      | none => exact (ih hnext (Nat.zero_le _)).mono (by omega)
      | some w =>
        have happend := first_append hfirst
        have hlen : w.matched.length ≤ t.length + 1 := by
          have h := congrArg List.length happend
          rw [List.length_append, List.length_cons] at h
          omega
        have hle : w.matched.length - 1 ≤ t.length := by omega
        refine ⟨le_refl _, ⟨w.rest, by rw [hdrop, happend]⟩, (ih hnext hle).mono ?_⟩
        simp only [Found.stop]
        omega

/-- **The matches stand in the text, one after the other.** -/
theorem placed_allMatches (r : Regex) (s : Text) : Placed s 0 (allMatches r s) :=
  placed_matchesFrom List.drop_zero (Nat.zero_le _)

end Matches

end Notely.Lib.Regexes
