import Notely.Engine.Extraction
import Notely.Engine.SearchIndex

/-! # The match expressions of the search

`to_fts_query` turns a question into an expression of FTS5: prefix terms joined by `OR`. What a letter is and what lower
case is are parameters, of which the documentation of Unicode says a little (`Unicode`).

* `IsQuery`: an expression of distinct terms, each made of the characters of a bareword and no keyword.
* `toFtsQuery_isQuery`: every question becomes such an expression; every word of it of two bytes or more is a term. -/

namespace Notely.Engine.MatchQueries

open Notely.Lib.Strings Notely.Lib.Utf8 Notely.Engine.SearchIndex
open Notely.Engine.Chunker (trim)

/-- What is known of letters and lower case. -/
structure Unicode (L : Letters) : Prop where
  alphanumeric : ∀ c, L.isAlphanumeric c = true → whiteSpace c = false
  ascii : ∀ t, (∀ c ∈ t, L.isAlphanumeric c = true) → ∀ c ∈ L.toLowercase t, c.toNat < 128 → c.isAlphanum = true
  lower : ∀ t, (∀ c ∈ t, L.isAlphanumeric c = true) → ∀ c ∈ L.toLowercase t, c.isUpper = false

/-- A character of a bareword. -/
def bareword (c : Char) : Bool := 128 ≤ c.toNat || c.isAlphanum || c == '_' || c.toNat == 26

/-- The words that are operators. -/
def keywords : List Text := ["AND".toList, "OR".toList, "NOT".toList, "NEAR".toList]

/-- A term, before its star. -/
structure IsTerm (t : Text) : Prop where
  nonempty : t ≠ []
  bare : ∀ c ∈ t, bareword c = true
  free : t ∉ keywords

/-- The expression `t1* OR t2* OR …`, or the empty one. -/
structure IsQuery (query : Text) (ts : List Text) : Prop where
  form : query = " OR ".toList.intercalate (ts.map (· ++ ['*']))
  distinct : ts.Nodup
  terms : ∀ t ∈ ts, IsTerm t

/-- A word of the question: letters and digits, and none on either side. -/
structure MaximalRun (L : Letters) (query run : Text) : Prop where
  nonempty : run ≠ []
  alphanumeric : ∀ c ∈ run, L.isAlphanumeric c = true
  maximal : ∃ before after, query = before ++ run ++ after ∧
    (∀ c ∈ before.getLast?, L.isAlphanumeric c = false) ∧ ∀ c ∈ after.head?, L.isAlphanumeric c = false

section Words
variable {L : Letters} {query run t : Text}

/-- A word is one of the pieces the question is split into. -/
theorem MaximalRun.mem (h : MaximalRun L query run) : run ∈ query.splitOnP (! L.isAlphanumeric ·) := by
  obtain ⟨before, after, rfl, hbefore, hafter⟩ := h.maximal
  have hsep : ∀ c ∈ run, (! L.isAlphanumeric c) = false := fun c hc => by rw [h.alphanumeric c hc]; rfl
  have hrun : run ∈ (run ++ after).splitOnP (! L.isAlphanumeric ·) := by
    cases after with
    | nil =>
      rw [List.append_nil, List.splitOnP_eq_singleton hsep]
      exact List.mem_singleton_self run
    | cons c after =>
      rw [List.splitOnP_append_cons_of_forall_mem hsep c (by rw [hafter c rfl]; rfl)]
      exact List.mem_cons_self
  rcases List.eq_nil_or_concat before with rfl | ⟨before, c, rfl⟩
  · exact hrun
  · have hc : (! L.isAlphanumeric c) = true := by
      rw [hbefore c (by simp)]
      rfl
    have hsplit := List.splitOnP_append_cons (p := (! L.isAlphanumeric ·)) before (run ++ after) hc
    rw [List.concat_eq_append, List.append_assoc, List.append_assoc, List.singleton_append, hsplit]
    exact List.mem_append_right _ hrun

theorem trim_run (hL : Unicode L) (h : ∀ c ∈ run, L.isAlphanumeric c = true) : trim run = run :=
  trimBy_eq_self (fun c hc => hL.alphanumeric c (h c (List.mem_of_mem_head? hc)))
    fun c hc => hL.alphanumeric c (h c (List.mem_of_getLast? hc))

/-- **The terms of a question**: what is long enough in lower case, once. -/
theorem ftsTokens_terms (L : Letters) (seen raws : List Text) :
    ∃ ts : List Text, ftsTokens L seen raws = ts.map (· ++ ['*']) ∧ ts.Nodup ∧
      ∀ t, t ∈ ts ↔ t ∉ seen ∧ 2 ≤ (encode t).length ∧ ∃ raw ∈ raws, L.toLowercase (trim raw) = t := by
  induction raws generalizing seen with
  | nil => exact ⟨[], rfl, List.nodup_nil, by simp⟩
  | cons raw raws ih =>
    rw [ftsTokens]
    by_cases hshort : (encode (L.toLowercase (trim raw))).length < 2
    · obtain ⟨ts, heq, hnodup, hmem⟩ := ih seen
      refine ⟨ts, by rw [if_pos hshort, heq], hnodup, fun t => ?_⟩
      rw [hmem, List.exists_mem_cons_iff]
      constructor
      · exact fun ⟨hnew, hlen, hraw⟩ => ⟨hnew, hlen, Or.inr hraw⟩
      · rintro ⟨hnew, hlen, rfl | hraw⟩
        · omega
        · exact ⟨hnew, hlen, hraw⟩
    · by_cases hseen : L.toLowercase (trim raw) ∈ seen
      · obtain ⟨ts, heq, hnodup, hmem⟩ := ih seen
        refine ⟨ts, by rw [if_neg hshort, if_pos hseen, heq], hnodup, fun t => ?_⟩
        rw [hmem, List.exists_mem_cons_iff]
        constructor
        · exact fun ⟨hnew, hlen, hraw⟩ => ⟨hnew, hlen, Or.inr hraw⟩
        · rintro ⟨hnew, hlen, rfl | hraw⟩
          · exact absurd hseen hnew
          · exact ⟨hnew, hlen, hraw⟩
      · obtain ⟨ts, heq, hnodup, hmem⟩ := ih (L.toLowercase (trim raw) :: seen)
        refine ⟨L.toLowercase (trim raw) :: ts, ?_, ?_, fun t => ?_⟩
        · rw [if_neg hshort, if_neg hseen, heq]
          rfl
        · exact List.nodup_cons.mpr ⟨fun h => ((hmem _).mp h).1 List.mem_cons_self, hnodup⟩
        · rw [List.mem_cons, hmem, List.mem_cons, not_or, List.exists_mem_cons_iff]
          constructor
          · rintro (rfl | ⟨⟨-, hnew⟩, hlen, hraw⟩)
            · exact ⟨hseen, by omega, Or.inl rfl⟩
            · exact ⟨hnew, hlen, Or.inr hraw⟩
          · rintro ⟨hnew, hlen, hraw⟩
            by_cases heq' : t = L.toLowercase (trim raw)
            · exact Or.inl heq'
            · exact Or.inr ⟨⟨heq', hnew⟩, hlen, hraw.resolve_left fun h => heq' h.symm⟩

/-- A piece of the question in lower case is a term. -/
theorem isTerm_toLowercase (hL : Unicode L) (h : ∀ c ∈ run, L.isAlphanumeric c = true)
    (hlen : 2 ≤ (encode (L.toLowercase run)).length) : IsTerm (L.toLowercase run) := by
  constructor
  · intro hnil
    rw [hnil] at hlen
    exact absurd hlen (by decide)
  · intro c hc
    by_cases hascii : c.toNat < 128
    · simp [bareword, hL.ascii run h c hc hascii]
    · simp [bareword, Nat.le_of_not_lt hascii]
  · intro hkeyword
    have hlower := hL.lower run h
    simp only [keywords, List.mem_cons, List.not_mem_nil, or_false] at hkeyword
    rcases hkeyword with heq | heq | heq | heq
    · exact absurd (hlower 'A' (by rw [heq]; decide)) (by decide)
    · exact absurd (hlower 'O' (by rw [heq]; decide)) (by decide)
    · exact absurd (hlower 'N' (by rw [heq]; decide)) (by decide)
    · exact absurd (hlower 'N' (by rw [heq]; decide)) (by decide)

/-- Terms joined are no empty expression. -/
theorem intercalate_eq_nil_iff {ts : List Text} : " OR ".toList.intercalate (ts.map (· ++ ['*'])) = [] ↔ ts = [] := by
  rcases ts with _ | ⟨t, _ | ⟨u, ts⟩⟩
  · simp
  · simp
  · rw [List.map_cons, List.map_cons, List.intercalate_cons_cons]
    simp

end Words

/-- **Every question becomes an expression of distinct terms, and none of its words is lost.** -/
theorem toFtsQuery_isQuery (L : Letters) (hL : Unicode L) (query : Text) :
    ∃ ts, IsQuery (toFtsQuery L query) ts ∧ (toFtsQuery L query = [] ↔ ts = []) ∧
      ∀ run, MaximalRun L query run → 2 ≤ (encode (L.toLowercase run)).length → L.toLowercase run ∈ ts := by
  obtain ⟨ts, heq, hnodup, hmem⟩ := ftsTokens_terms L [] (query.splitOnP (! L.isAlphanumeric ·))
  have hform : toFtsQuery L query = " OR ".toList.intercalate (ts.map (· ++ ['*'])) := by rw [toFtsQuery, heq]
  have hruns : ∀ raw ∈ query.splitOnP (! L.isAlphanumeric ·), ∀ c ∈ raw, L.isAlphanumeric c = true := by
    intro raw hraw c hc
    simpa using sep_false_of_mem_splitOnP hraw c hc
  refine ⟨ts, ⟨hform, hnodup, fun t ht => ?_⟩, by rw [hform, intercalate_eq_nil_iff], fun run hrun hlen => ?_⟩
  · obtain ⟨-, hlen, raw, hraw, rfl⟩ := (hmem t).mp ht
    rw [trim_run hL (hruns raw hraw)] at hlen ⊢
    exact isTerm_toLowercase hL (hruns raw hraw) hlen
  · exact (hmem _).mpr ⟨List.not_mem_nil, hlen, run, hrun.mem, by rw [trim_run hL hrun.alphanumeric]⟩

section Ascii
open Notely.Engine.Extraction (ascii)

theorem toNat_lt_of_isAlphanum {c : Char} (h : c.isAlphanum = true) : c.toNat < 128 := by
  have h' : (decide (c.val ≥ 'A'.val ∧ c.val ≤ 'Z'.val) || (decide (c.val ≥ 'a'.val) && decide (c.val ≤ 'z'.val)) ||
      (decide (c.val ≥ '0'.val) && decide (c.val ≤ '9'.val))) = true := h
  simp only [Bool.or_eq_true, Bool.and_eq_true, decide_eq_true_eq] at h'
  have hle {d : Char} (hd : d.toNat < 128) (hc : c.val ≤ d.val) : c.toNat < 128 :=
    Nat.lt_of_le_of_lt (UInt32.le_iff_toNat_le.mp hc) hd
  rcases h' with (⟨-, hc⟩ | ⟨-, hc⟩) | ⟨-, hc⟩
  · exact hle (by decide) hc
  · exact hle (by decide) hc
  · exact hle (by decide) hc

/-- What is decided for all characters of ASCII holds of its letters and digits. -/
theorem ascii_cases {P : Char → Prop} (h : ∀ n < 128, P (Char.ofNat n)) {c : Char} (hc : c.isAlphanum = true) :
    P c := by
  rw [← Char.ofNat_toNat c]
  exact h _ (toNat_lt_of_isAlphanum hc)

theorem unicode_ascii : Unicode ascii where
  alphanumeric c hc := ascii_cases (P := fun c => c.isAlphanum = true → whiteSpace c = false) (by decide +kernel) hc hc
  ascii t ht c hc _ := by
    obtain ⟨d, hd, rfl⟩ := List.mem_map.mp hc
    exact ascii_cases (P := fun c => c.isAlphanum = true → c.toLower.isAlphanum = true) (by decide +kernel) (ht d hd)
      (ht d hd)
  lower t ht c hc := by
    obtain ⟨d, hd, rfl⟩ := List.mem_map.mp hc
    exact ascii_cases (P := fun c => c.isAlphanum = true → c.toLower.isUpper = false) (by decide +kernel) (ht d hd)
      (ht d hd)

/-- A question with operators. -/
theorem toFtsQuery_isQuery_ascii :
    ∃ ts, IsQuery (toFtsQuery ascii "a AND (b OR c)".toList) ts ∧
      (toFtsQuery ascii "a AND (b OR c)".toList = [] ↔ ts = []) ∧
      ∀ run, MaximalRun ascii "a AND (b OR c)".toList run → 2 ≤ (encode (ascii.toLowercase run)).length →
        ascii.toLowercase run ∈ ts :=
  toFtsQuery_isQuery ascii unicode_ascii "a AND (b OR c)".toList

example : toFtsQuery ascii "a AND (b OR c)".toList = "and* OR or*".toList := by decide

end Ascii

end Notely.Engine.MatchQueries
