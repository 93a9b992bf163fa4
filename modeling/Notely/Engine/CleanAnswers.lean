import Notely.Engine.VaultAnswers

/-! # What is left of a reply

`clean_answer` of `search/qa.rs`, whose loop edits the text that it searches. What is removed can join the characters
around it into a new tag, which the next turn finds; a tag that is never closed takes the rest of the text along.

* `breakBefore_append`: the first occurrence of a mark, a pattern whose first character is nowhere else in it.
* `stripThinking_cons`, `stripThinking_concat`: characters at the ends that belong to no tag; so trimming first makes no
  difference (`trim_stripThinking_trim`).
* `stripWithin_eq`: every turn takes eight characters away.
* `cleanAnswer_law`: the result has no tag in it, is trimmed, and is a subsequence of the reply that cleaning leaves
  alone; closed blocks are removed, and nothing else. -/

namespace Notely.Engine.CleanAnswers

open Notely.Lib.Strings Notely.Engine.VaultAnswers
open Notely.Engine.Chunker (trim)

/-! ### The first occurrence -/

section Occurrence
variable {pat s before rest u : Text}

/-- A pattern whose first character is nowhere else in it. -/
def Mark : Text → Prop
  | [] => False
  | c :: cs => c ∉ cs

instance : DecidablePred Mark
  | [] => inferInstanceAs (Decidable False)
  | c :: cs => inferInstanceAs (Decidable (c ∉ cs))

theorem breakBefore_eq_none_iff : breakBefore pat s = none ↔ ¬ pat <:+: s := by
  induction s with
  | nil =>
    rw [breakBefore, List.infix_nil]
    split_ifs with h <;> simp [h]
  | cons c s ih =>
    rw [breakBefore, List.infix_cons_iff]
    split_ifs with h
    · simp [h]
    · rw [Option.map_eq_none_iff, ih]
      simp [h]

/-- Nothing is found before the first occurrence. -/
theorem not_infix_before (hpat : pat ≠ []) (h : breakBefore pat s = some (before, rest)) : ¬ pat <:+: before := by
  induction s generalizing before with
  | nil =>
    rw [breakBefore, if_neg hpat] at h
    cases h
  | cons c s ih =>
    rw [breakBefore] at h
    split_ifs at h with hc
    · cases h
      simpa using hpat
    · obtain ⟨⟨before', rest'⟩, hbreak, heq⟩ := Option.map_eq_some_iff.mp h
      cases heq
      obtain ⟨hs, -⟩ := breakBefore_eq hbreak
      rw [List.infix_cons_iff]
      rintro (hstart | hinside)
      · exact hc (hs ▸ hstart.trans ⟨rest, by rw [List.cons_append]⟩)
      · exact ih hbreak hinside

/-- A mark does not start in what it does not occur in. -/
theorem not_prefix_append (hmark : Mark pat) (hs : s ≠ []) (hpat : ¬ pat <:+: s) : ¬ pat <+: s ++ pat ++ u := by
  intro hprefix
  have hfront : s <+: s ++ pat ++ u := ⟨pat ++ u, by rw [List.append_assoc]⟩
  rcases List.prefix_or_prefix_of_prefix hprefix hfront with h | ⟨w, hw⟩
  · exact hpat h.isInfix
  · -- The mark starts in `s` and goes on into the next one, whose first character it would repeat.
    rw [List.append_assoc, ← hw, List.prefix_append_right_inj] at hprefix
    obtain ⟨c, cs, rfl⟩ := List.exists_cons_of_ne_nil hs
    rw [← hw] at hmark
    have hc : c ∉ cs ++ w := hmark
    cases w with
    | nil => exact hpat (by rw [← hw, List.append_nil])
    | cons d w =>
      obtain ⟨t, ht⟩ := hprefix
      rw [List.cons_append, List.append_assoc, List.cons_append, List.cons.injEq] at ht
      exact hc (by rw [ht.1]; simp)

/-- **The first occurrence of a mark**: where it is put after a text that it does not occur in. -/
theorem breakBefore_append (hmark : Mark pat) (hpat : ¬ pat <:+: s) :
    breakBefore pat (s ++ pat ++ u) = some (s, pat ++ u) := by
  induction s with
  | nil =>
    obtain ⟨c, cs, rfl⟩ := List.exists_cons_of_ne_nil (by rintro rfl; exact hmark : pat ≠ [])
    have hprefix : c :: cs <+: c :: (cs ++ u) := List.prefix_append (c :: cs) u
    rw [List.nil_append, List.cons_append, breakBefore, if_pos hprefix]
  | cons c s ih =>
    have hnot := not_prefix_append (u := u) hmark (List.cons_ne_nil c s) hpat
    rw [List.infix_cons_iff, not_or] at hpat
    rw [List.cons_append, List.cons_append] at hnot ⊢
    rw [breakBefore, if_neg hnot, ih hpat.2]
    rfl

/-- A character at the end that ends no occurrence. -/
theorem breakBefore_concat {c : Char} (hpat : pat ≠ []) (hc : pat.getLast? ≠ some c) :
    breakBefore pat (s ++ [c]) = (breakBefore pat s).map fun (before, rest) => (before, rest ++ [c]) := by
  have hmarked : ∀ t : Text, pat <+: t ++ [c] ↔ pat <+: t := by
    intro t
    rw [List.prefix_concat_iff, or_iff_right]
    rintro rfl
    exact hc List.getLast?_concat
  induction s with
  | nil =>
    have hnot : ¬ pat <+: [c] := fun h => hpat (List.prefix_nil.mp ((hmarked []).mp h))
    simp only [List.nil_append, breakBefore, if_neg hnot, if_neg hpat, Option.map_none]
  | cons d s ih =>
    have hiff := hmarked (d :: s)
    rw [List.cons_append] at hiff
    rw [List.cons_append, breakBefore, breakBefore]
    by_cases h : pat <+: d :: s
    · rw [if_pos h, if_pos (hiff.mpr h)]
      rfl
    · rw [if_neg h, if_neg (fun h' => h (hiff.mp h')), ih, Option.map_map, Option.map_map]
      rfl

end Occurrence

/-! ### The loop -/

section Loop
variable {s before block inner rest : Text}

/-- One turn of the loop, without what its termination needs. -/
theorem stripThinking_eq (s : Text) :
    stripThinking s =
      match breakBefore "<think>".toList s with
      | none => s
      | some (before, block) =>
        match breakBefore "</think>".toList block with
        | none => before
        | some (_, rest) => stripThinking (before ++ rest.drop 8) := by
  rw [stripThinking]
  split
  · rename_i hopen
    rw [hopen]
  · rename_i hopen
    rw [hopen]
    split
    · rename_i hclose
      simp only [hclose]
    · rename_i hclose
      simp only [hclose]

theorem stripThinking_of_unmarked (h : ¬ "<think>".toList <:+: s) : stripThinking s = s := by
  rw [stripThinking_eq, breakBefore_eq_none_iff.mpr h]

/-- A tag that is not closed takes the rest along. -/
theorem stripThinking_truncate (hopen : breakBefore "<think>".toList s = some (before, block))
    (hclose : breakBefore "</think>".toList block = none) : stripThinking s = before := by
  rw [stripThinking_eq, hopen]
  simp only [hclose]

/-- A closed block is taken out, and the search starts again. -/
theorem stripThinking_block (hopen : breakBefore "<think>".toList s = some (before, block))
    (hclose : breakBefore "</think>".toList block = some (inner, rest)) :
    stripThinking s = stripThinking (before ++ rest.drop 8) := by
  rw [stripThinking_eq s, hopen]
  simp only [hclose]

/-- What a turn leaves: eight characters fewer at least, all of them from the text. -/
theorem turn (hopen : breakBefore "<think>".toList s = some (before, block))
    (hclose : breakBefore "</think>".toList block = some (inner, rest)) :
    (before ++ rest.drop 8).length + 8 ≤ s.length ∧ (before ++ rest.drop 8).Sublist s := by
  obtain ⟨hs, -⟩ := breakBefore_eq hopen
  obtain ⟨hblock, hprefix⟩ := breakBefore_eq hclose
  have hlength : 8 ≤ rest.length := hprefix.length_le
  constructor
  · rw [hs, hblock, List.length_append, List.length_append, List.length_append, List.length_drop]
    omega
  · rw [hs, hblock]
    exact (List.Sublist.refl before).append ((List.drop_sublist 8 rest).trans (List.sublist_append_right inner rest))

/-- **One case for each way the loop goes on**: nothing is found, a tag is not closed, a block is taken out. -/
theorem stripThinking_induct {motive : Text → Prop}
    (clean : ∀ s, ¬ "<think>".toList <:+: s → motive s)
    (truncate : ∀ s before block, breakBefore "<think>".toList s = some (before, block) →
      breakBefore "</think>".toList block = none → motive s)
    (block : ∀ s before block inner rest, breakBefore "<think>".toList s = some (before, block) →
      breakBefore "</think>".toList block = some (inner, rest) → motive (before ++ rest.drop 8) → motive s)
    (s : Text) : motive s := by
  induction hn : s.length using Nat.strong_induction_on generalizing s with
  | _ n ih =>
    cases hopen : breakBefore "<think>".toList s with
    | none => exact clean s (breakBefore_eq_none_iff.mp hopen)
    | some found =>
      obtain ⟨before, blk⟩ := found
      cases hclose : breakBefore "</think>".toList blk with
      | none => exact truncate s before blk hopen hclose
      | some closed =>
        obtain ⟨hlength, -⟩ := turn hopen hclose
        exact block s before blk _ _ hopen hclose (ih _ (by omega) _ rfl)

/-! ### What the loop leaves -/

theorem stripThinking_sublist (s : Text) : (stripThinking s).Sublist s := by
  induction s using stripThinking_induct with
  | clean s h => rw [stripThinking_of_unmarked h]
  | truncate s before block hopen hclose =>
    rw [stripThinking_truncate hopen hclose]
    obtain ⟨hs, -⟩ := breakBefore_eq hopen
    exact hs ▸ List.sublist_append_left before block
  | block s before block inner rest hopen hclose ih =>
    rw [stripThinking_block hopen hclose]
    exact ih.trans (turn hopen hclose).2

/-- **No tag is left.** -/
theorem not_infix_stripThinking (s : Text) : ¬ "<think>".toList <:+: stripThinking s := by
  induction s using stripThinking_induct with
  | clean s h => rwa [stripThinking_of_unmarked h]
  | truncate s before block hopen hclose =>
    rw [stripThinking_truncate hopen hclose]
    exact not_infix_before (by decide) hopen
  | block s before block inner rest hopen hclose ih => rwa [stripThinking_block hopen hclose]

/-- A character before the text that starts no tag. -/
theorem stripThinking_cons {c : Char} (hc : c ≠ '<') (s : Text) : stripThinking (c :: s) = c :: stripThinking s := by
  have hbreak : ∀ t, breakBefore "<think>".toList (c :: t) =
      (breakBefore "<think>".toList t).map fun (before, rest) => (c :: before, rest) := by
    intro t
    have hnot : ¬ "<think>".toList <+: c :: t := by
      rintro ⟨u, hu⟩
      exact hc (List.cons.inj hu).1.symm
    rw [breakBefore, if_neg hnot]
  induction s using stripThinking_induct with
  | clean s h =>
    have hcons : breakBefore "<think>".toList (c :: s) = none := by
      rw [hbreak, breakBefore_eq_none_iff.mpr h]
      rfl
    rw [stripThinking_of_unmarked h, stripThinking_of_unmarked (breakBefore_eq_none_iff.mp hcons)]
  | truncate s before block hopen hclose =>
    have hcons : breakBefore "<think>".toList (c :: s) = some (c :: before, block) := by rw [hbreak, hopen]; rfl
    rw [stripThinking_truncate hopen hclose, stripThinking_truncate hcons hclose]
  | block s before block inner rest hopen hclose ih =>
    have hcons : breakBefore "<think>".toList (c :: s) = some (c :: before, block) := by rw [hbreak, hopen]; rfl
    rw [stripThinking_block hopen hclose, stripThinking_block hcons hclose, List.cons_append, ih]

/-- A character after the text that ends no tag: it stays, or a tag that is not closed takes it along. -/
theorem stripThinking_concat {c : Char} (hc : c ≠ '>') (s : Text) :
    stripThinking (s ++ [c]) = stripThinking s ∨ stripThinking (s ++ [c]) = stripThinking s ++ [c] := by
  have hlast : ∀ pat : Text, pat.getLast? = some '>' → pat ≠ [] ∧ pat.getLast? ≠ some c := by
    intro pat hpat
    constructor
    · rintro rfl
      cases hpat
    · intro h
      rw [hpat, Option.some.injEq] at h
      exact hc h.symm
  obtain ⟨hne, hend⟩ := hlast "<think>".toList (by decide)
  obtain ⟨hne', hend'⟩ := hlast "</think>".toList (by decide)
  induction s using stripThinking_induct with
  | clean s h =>
    have hconcat : breakBefore "<think>".toList (s ++ [c]) = none := by
      rw [breakBefore_concat hne hend, breakBefore_eq_none_iff.mpr h]
      rfl
    right
    rw [stripThinking_of_unmarked h, stripThinking_of_unmarked (breakBefore_eq_none_iff.mp hconcat)]
  | truncate s before block hopen hclose =>
    have hconcat : breakBefore "<think>".toList (s ++ [c]) = some (before, block ++ [c]) := by
      rw [breakBefore_concat hne hend, hopen]
      rfl
    have hclose' : breakBefore "</think>".toList (block ++ [c]) = none := by
      rw [breakBefore_concat hne' hend', hclose]
      rfl
    left
    rw [stripThinking_truncate hopen hclose, stripThinking_truncate hconcat hclose']
  | block s before block inner rest hopen hclose ih =>
    have hconcat : breakBefore "<think>".toList (s ++ [c]) = some (before, block ++ [c]) := by
      rw [breakBefore_concat hne hend, hopen]
      rfl
    have hclose' : breakBefore "</think>".toList (block ++ [c]) = some (inner, rest ++ [c]) := by
      rw [breakBefore_concat hne' hend', hclose]
      rfl
    have hlength : 8 ≤ rest.length := (breakBefore_eq hclose).2.length_le
    rw [stripThinking_block hopen hclose, stripThinking_block hconcat hclose', List.drop_append_of_le_length hlength,
      ← List.append_assoc]
    exact ih

/-- **Trimming before the loop makes no difference** to what is trimmed after it. -/
theorem trim_stripThinking_trim (s : Text) : trim (stripThinking (trim s)) = trim (stripThinking s) := by
  refine apply_trimBy (g := fun s => trim (stripThinking s)) (fun c s hc => ?_) (fun c s hc => ?_) s
  · have hne : c ≠ '<' := by
      rintro rfl
      revert hc
      decide
    rw [stripThinking_cons hne]
    exact trimBy_cons hc
  · have hne : c ≠ '>' := by
      rintro rfl
      revert hc
      decide
    rcases stripThinking_concat hne s with h | h
    · rw [h]
    · rw [h]
      exact trimBy_concat hc

theorem cleanAnswer_eq (text : Text) : cleanAnswer text = trim (stripThinking text) := trim_stripThinking_trim text

/-! ### Closed blocks -/

/-- A text with blocks in it: what stands before the first, and each block with what follows it. -/
def withBlocks (start : Text) (blocks : List (Text × Text)) : Text :=
  start ++ blocks.flatMap fun (inner, after) => "<think>".toList ++ inner ++ "</think>".toList ++ after

/-- The same text without the blocks. -/
def withoutBlocks (start : Text) (blocks : List (Text × Text)) : Text := start ++ blocks.flatMap Prod.snd

theorem not_infix_of_notMem {t : Text} (ht : '<' ∉ t) : ¬ "<think>".toList <:+: t := fun hinside =>
  ht (hinside.subset (by decide))

/-- A block that is opened is not closed with its tag. -/
theorem not_infix_opened (h : ¬ "</think>".toList <:+: inner) :
    ¬ "</think>".toList <:+: "<think>".toList ++ inner := by
  have hopening : "<think>".toList = ['<', 't', 'h', 'i', 'n', 'k', '>'] := by decide
  have hclosing : "</think>".toList = ['<', '/', 't', 'h', 'i', 'n', 'k', '>'] := by decide
  rw [hopening, hclosing] at *
  simpa [List.infix_cons_iff, List.cons_prefix_cons] using h

/-- **The blocks are taken out**, and nothing else. -/
theorem stripThinking_withBlocks {start : Text} {blocks : List (Text × Text)} (hstart : '<' ∉ start)
    (hinner : ∀ b ∈ blocks, ¬ "</think>".toList <:+: b.1) (hafter : ∀ b ∈ blocks, '<' ∉ b.2) :
    stripThinking (withBlocks start blocks) = withoutBlocks start blocks := by
  induction blocks generalizing start with
  | nil =>
    rw [withBlocks, withoutBlocks, List.flatMap_nil, List.flatMap_nil, List.append_nil]
    exact stripThinking_of_unmarked (not_infix_of_notMem hstart)
  | cons b blocks ih =>
    obtain ⟨inner, after⟩ := b
    have hinner₀ : ¬ "</think>".toList <:+: inner := hinner (inner, after) (List.mem_cons_self ..)
    have hafter₀ : '<' ∉ after := hafter (inner, after) (List.mem_cons_self ..)
    have hstart' : '<' ∉ start ++ after := by
      rw [List.mem_append, not_or]
      exact ⟨hstart, hafter₀⟩
    have ih' := ih hstart' (fun b hb => hinner b (List.mem_cons_of_mem _ hb))
      (fun b hb => hafter b (List.mem_cons_of_mem _ hb))
    have hopen := breakBefore_append (u := inner ++ ("</think>".toList ++ withBlocks after blocks))
      (by decide : Mark "<think>".toList) (not_infix_of_notMem hstart)
    have hclose := breakBefore_append (u := withBlocks after blocks) (by decide : Mark "</think>".toList)
      (not_infix_opened hinner₀)
    have htext : withBlocks start ((inner, after) :: blocks) =
        start ++ "<think>".toList ++ (inner ++ ("</think>".toList ++ withBlocks after blocks)) := by
      simp only [withBlocks, List.flatMap_cons, List.append_assoc]
    have hjoined : start ++ withBlocks after blocks = withBlocks (start ++ after) blocks := by
      simp only [withBlocks, List.append_assoc]
    rw [List.append_assoc _ "</think>".toList, List.append_assoc] at hclose
    rw [htext, stripThinking_block hopen hclose, List.drop_left' (by decide), hjoined, ih']
    simp only [withoutBlocks, List.flatMap_cons, List.append_assoc]

/-! ### The number of turns -/

/-- The loop with a number of turns; `none` when they do not suffice. -/
def stripWithin : ℕ → Text → Option Text
  | 0, _ => none
  | turns + 1, s =>
    match breakBefore "<think>".toList s with
    | none => some s
    | some (before, block) =>
      match breakBefore "</think>".toList block with
      | none => some before
      | some (_, rest) => stripWithin turns (before ++ rest.drop 8)

/-- **The loop ends**: every turn but the last takes eight characters away. -/
theorem stripWithin_eq {turns : ℕ} (h : s.length / 8 < turns) : stripWithin turns s = some (stripThinking s) := by
  induction turns generalizing s with
  | zero => omega
  | succ turns ih =>
    rw [stripWithin, stripThinking_eq]
    cases hopen : breakBefore "<think>".toList s with
    | none => rfl
    | some found =>
      obtain ⟨before, block⟩ := found
      cases hclose : breakBefore "</think>".toList block with
      | none => simp only [hclose]
      | some closed =>
        obtain ⟨inner, rest⟩ := closed
        obtain ⟨hlength, -⟩ := turn hopen hclose
        simp only [hclose]
        exact ih (by omega)

end Loop

/-! ### The answer -/

/-- `clean_answer` with a number of turns for its loop. -/
def cleanWithin (turns : ℕ) (text : Text) : Option Text := (stripWithin turns (trim text)).map trim

theorem cleanWithin_eq {turns : ℕ} {text : Text} (h : text.length / 8 < turns) :
    cleanWithin turns text = some (cleanAnswer text) := by
  have hlength : (trim text).length ≤ text.length := trimBy_sublist.length_le
  rw [cleanWithin, stripWithin_eq (by omega)]
  rfl

theorem trim_cleanAnswer (text : Text) : trim (cleanAnswer text) = cleanAnswer text :=
  trimBy_eq_self head?_trimBy getLast?_trimBy

theorem not_infix_cleanAnswer (text : Text) : ¬ "<think>".toList <:+: cleanAnswer text := fun h =>
  not_infix_stripThinking (trim text) (h.trans trimBy_infix)

/-- Without a tag in it, a reply is trimmed. -/
theorem cleanAnswer_of_unmarked {text : Text} (h : ¬ "<think>".toList <:+: trim text) :
    cleanAnswer text = trim text := by
  rw [cleanAnswer, stripThinking_of_unmarked h]
  exact trimBy_eq_self head?_trimBy getLast?_trimBy

theorem cleanAnswer_cleanAnswer (text : Text) : cleanAnswer (cleanAnswer text) = cleanAnswer text := by
  have hfree : ¬ "<think>".toList <:+: trim (cleanAnswer text) := by
    rw [trim_cleanAnswer]
    exact not_infix_cleanAnswer text
  rw [cleanAnswer_of_unmarked hfree, trim_cleanAnswer]

theorem cleanAnswer_sublist (text : Text) : (cleanAnswer text).Sublist text :=
  trimBy_sublist.trans ((stripThinking_sublist _).trans trimBy_sublist)

theorem cleanAnswer_withBlocks {start : Text} {blocks : List (Text × Text)} (hstart : '<' ∉ start)
    (hinner : ∀ b ∈ blocks, ¬ "</think>".toList <:+: b.1) (hafter : ∀ b ∈ blocks, '<' ∉ b.2) :
    cleanAnswer (withBlocks start blocks) = trim (withoutBlocks start blocks) := by
  rw [cleanAnswer_eq, stripThinking_withBlocks hstart hinner hafter]

/-- **What `clean_answer` does to every reply.** -/
theorem cleanAnswer_law :
    (∀ text : Text,
      (∀ turns, text.length / 8 < turns → cleanWithin turns text = some (cleanAnswer text)) ∧
      ¬ "<think>".toList <:+: cleanAnswer text ∧
      (∀ c ∈ (cleanAnswer text).head?, whiteSpace c = false) ∧
      (∀ c ∈ (cleanAnswer text).getLast?, whiteSpace c = false) ∧
      cleanAnswer (cleanAnswer text) = cleanAnswer text ∧
      (cleanAnswer text).Sublist text ∧
      (¬ "<think>".toList <:+: trim text → cleanAnswer text = trim text)) ∧
    ∀ (start : Text) (blocks : List (Text × Text)), '<' ∉ start →
      (∀ b ∈ blocks, ¬ "</think>".toList <:+: b.1) → (∀ b ∈ blocks, '<' ∉ b.2) →
      cleanAnswer (withBlocks start blocks) = trim (withoutBlocks start blocks) := by
  refine ⟨fun text => ⟨fun turns h => cleanWithin_eq h, not_infix_cleanAnswer text, ?_, ?_,
    cleanAnswer_cleanAnswer text, cleanAnswer_sublist text, cleanAnswer_of_unmarked⟩,
    fun start blocks hstart hinner hafter => cleanAnswer_withBlocks hstart hinner hafter⟩
  · exact head?_trimBy
  · exact getLast?_trimBy

/-- A block inside a tag, one with a tag in it, and spaces that the blocks leave at the ends. -/
theorem cleanAnswer_law_draft :
    cleanAnswer (withBlocks "  Ship ".toList
      [("a <think> b".toList, "on ".toList), ("<".toList, "Friday\n ".toList)]) = "Ship on Friday".toList :=
  (cleanAnswer_law.2 _ _ (by decide) (by decide) (by decide)).trans (by decide)

/-- Two halves of a tag are joined, and the tag so formed takes the rest along. -/
example : cleanWithin 3 "a <thi<think></think>nk> b".toList = some "a".toList := by decide

end Notely.Engine.CleanAnswers
