import Notely.Engine.CachedGeneration
import Notely.Engine.VaultScope

/-! # Answers from the vault

`search/qa.rs`. The passages retrieved become the citations of the answer, whatever the model replies. The text is
assembled on four paths: nothing was found, the model replied, its reply is blank, or the call failed; the question,
the snippets and the reply may all have bracketed numbers of their own.

* `hasMarker_append`: the markers of a text that is put together.
* `hasMarker_fallbackText`: those of the list of sources.
* `grounded_iff`: when every marker of an answer refers to a citation. -/

namespace Notely.Engine.VaultAnswers

open Notely.Lib.Strings Notely.Lib.Paths Notely.Engine.Analysis Notely.Engine.CachedGeneration
open Notely.Engine.SearchIndex Notely.Engine.VaultScope
open Notely.Engine.Chunker (trim)

/-! ### Markers -/

/-- The text has the marker `[n]`. -/
def HasMarker (text : Text) (n : ℕ) : Prop :=
  ∃ before ds after, text = before ++ '[' :: (ds ++ ']' :: after) ∧ ds ≠ [] ∧ (∀ d ∈ ds, d.isDigit = true) ∧
    Nat.ofDigitChars 10 ds 0 = n

/-- No marker goes on from `x` into `y`. -/
def Apart (x y : Text) : Prop :=
  ∀ c ∈ x.getLast?, ∀ d ∈ y.head?, ¬ ((c = '[' ∨ c.isDigit = true) ∧ (d = ']' ∨ d.isDigit = true))

section Markers
variable {x y rest ds : Text} {n : ℕ}

theorem not_hasMarker (h : '[' ∉ x) : ¬ HasMarker x n := by
  rintro ⟨before, ds, after, rfl, -, -, -⟩
  simp at h

theorem HasMarker.append_right (h : HasMarker x n) : HasMarker (x ++ y) n := by
  obtain ⟨before, ds, after, rfl, hne, hdigits, hn⟩ := h
  exact ⟨before, ds, after ++ y, by simp, hne, hdigits, hn⟩

theorem HasMarker.append_left (h : HasMarker y n) : HasMarker (x ++ y) n := by
  obtain ⟨before, ds, after, rfl, hne, hdigits, hn⟩ := h
  exact ⟨x ++ before, ds, after, by simp, hne, hdigits, hn⟩

/-- A marker that starts in `x` and goes on into `y`. -/
theorem not_apart {before after : Text} (gap : Text) (hdigits : ∀ d ∈ x ++ gap, d.isDigit = true) :
    ¬ Apart (before ++ '[' :: x) (gap ++ ']' :: after) := by
  intro h
  have hlast : (before ++ '[' :: x).getLast? = some (('[' :: x).getLast (by simp)) := by
    rw [List.getLast?_append_of_ne_nil _ (by simp), List.getLast?_eq_some_getLast]
  have hmem : ('[' :: x).getLast (by simp) ∈ '[' :: x := List.getLast_mem _
  have hc : ('[' :: x).getLast (by simp) = '[' ∨ (('[' :: x).getLast (by simp)).isDigit = true :=
    (List.mem_cons.mp hmem).imp_right fun hx => hdigits _ (List.mem_append_left gap hx)
  cases gap with
  | nil => exact h _ hlast ']' rfl ⟨hc, Or.inl rfl⟩
  | cons d gap => exact h _ hlast d rfl ⟨hc, Or.inr (hdigits d (by simp))⟩

/-- **The markers of two texts that are put together.** -/
theorem hasMarker_append (h : Apart x y) : HasMarker (x ++ y) n ↔ HasMarker x n ∨ HasMarker y n := by
  constructor
  · rintro ⟨before, ds, after, heq, hne, hdigits, hn⟩
    rcases List.append_eq_append_iff.mp heq with ⟨gap, rfl, rfl⟩ | ⟨start, rfl, hstart⟩
    · exact Or.inr ⟨gap, ds, after, rfl, hne, hdigits, hn⟩
    · rcases List.cons_eq_append_iff.mp hstart with ⟨rfl, rfl⟩ | ⟨start, rfl, hrest⟩
      · exact Or.inr ⟨[], ds, after, rfl, hne, hdigits, hn⟩
      · rcases List.append_eq_append_iff.mp hrest with ⟨gap, rfl, hgap⟩ | ⟨gap, rfl, rfl⟩
        · rcases List.cons_eq_append_iff.mp hgap with ⟨rfl, rfl⟩ | ⟨after', rfl, -⟩
          · exact absurd h (not_apart [] (by simpa using hdigits))
          · exact Or.inl ⟨before, ds, after', by simp, hne, hdigits, hn⟩
        · exact absurd h (not_apart gap hdigits)
  · rintro (h | h)
    · exact h.append_right
    · exact h.append_left

/-- A number in brackets is a marker. -/
theorem hasMarker_bracketed (hne : ds ≠ []) (hdigits : ∀ d ∈ ds, d.isDigit = true) :
    HasMarker ('[' :: (ds ++ [']'])) n ↔ n = Nat.ofDigitChars 10 ds 0 := by
  have hbracket {c : Char} (hc : c = '[' ∨ c = ']') : c ∉ ds := by
    intro hmem
    have hdigit := hdigits c hmem
    rcases hc with rfl | rfl
    · exact absurd hdigit (by decide)
    · exact absurd hdigit (by decide)
  constructor
  · rintro ⟨before, ds', after, heq, -, hnumber, rfl⟩
    rcases before with _ | ⟨c, before⟩
    · have htail : ds ++ ']' :: [] = ds' ++ ']' :: after := (List.cons.inj heq).2
      rcases List.append_eq_append_iff.mp htail with ⟨gap, rfl, hgap⟩ | ⟨gap, rfl, hgap⟩
      · rcases List.cons_eq_append_iff.mp hgap with ⟨rfl, -⟩ | ⟨rest, rfl, -⟩
        · rw [List.append_nil]
        · exact absurd (hnumber ']' (by simp)) (by decide)
      · rcases List.cons_eq_append_iff.mp hgap with ⟨rfl, -⟩ | ⟨rest, rfl, -⟩
        · rw [List.append_nil]
        · exact absurd (by simp) (hbracket (Or.inr rfl))
    · have hmem : '[' ∈ ds ++ [']'] := by
        rw [(List.cons.inj heq).2]
        simp
      rcases List.mem_append.mp hmem with hmem | hmem
      · exact absurd hmem (hbracket (Or.inl rfl))
      · exact absurd (List.mem_singleton.mp hmem) (by decide)
  · rintro rfl
    exact ⟨[], ds, [], rfl, hne, hdigits, rfl⟩

end Markers

/-! ### Answering -/

/-- `AskAnswer`. -/
structure AskAnswer where
  text : Text
  filesRead : List Path
  citations : List Citation
  deriving DecidableEq

/-- `SYSTEM_PROMPT`. -/
def systemPrompt : Text :=
  ("You are Notely, answering questions strictly from the user's own notes. Use ONLY the numbered sources " ++
    "provided. Support every claim with a citation marker like [1] or [2] that refers to the source it came from. " ++
    "If the sources do not contain the answer, say so plainly. Never invent facts, names, dates, or sources. " ++
    "Answer concisely in Markdown.").toList

/-- The lines of a passage, as the prompt names them. -/
def linesOf (p : Passage) : Text :=
  if p.startLine = p.endLine then "line ".toList ++ Nat.toDigits 10 (p.startLine + 1)
  else "lines ".toList ++ Nat.toDigits 10 (p.startLine + 1) ++ "-".toList ++ Nat.toDigits 10 (p.endLine + 1)

/-- `build_prompt`. -/
def buildPrompt (question : Text) (passages : List Passage) : Text :=
  "Question: ".toList ++ trim question ++ "\n\nSources:\n".toList ++
    (passages.mapIdx fun i p => "[".toList ++ Nat.toDigits 10 (i + 1) ++ "] ".toList ++ p.title ++ " (".toList ++
      linesOf p ++ "):\n".toList ++ trim p.body ++ "\n\n".toList).flatten ++
    "Answer the question using only these sources, citing them by number (e.g. [1]).".toList

/-- A text broken before the first occurrence of the pattern. -/
def breakBefore (pat : Text) : Text → Option (Text × Text)
  | [] => if pat = [] then some ([], []) else none
  | c :: cs =>
    if pat <+: c :: cs then some ([], c :: cs) else (breakBefore pat cs).map fun (before, rest) => (c :: before, rest)

theorem breakBefore_eq {pat s before rest : Text} (h : breakBefore pat s = some (before, rest)) :
    s = before ++ rest ∧ pat <+: rest := by
  induction s generalizing before with
  | nil =>
    unfold breakBefore at h
    split_ifs at h with hpat
    cases h
    exact ⟨rfl, hpat ▸ List.nil_prefix⟩
  | cons c cs ih =>
    unfold breakBefore at h
    split_ifs at h with hpat
    · cases h
      exact ⟨rfl, hpat⟩
    · obtain ⟨⟨before', rest'⟩, hbreak, heq⟩ := Option.map_eq_some_iff.mp h
      cases heq
      obtain ⟨hs, hprefix⟩ := ih hbreak
      exact ⟨by rw [hs, List.cons_append], hprefix⟩

/-- The loop of `clean_answer`: each block that is closed is left out, and what follows one that is not. -/
def stripThinking (s : Text) : Text :=
  match _hopen : breakBefore "<think>".toList s with
  | none => s
  | some (before, block) =>
    match _hclose : breakBefore "</think>".toList block with
    | none => before
    | some (_, closing) => stripThinking (before ++ closing.drop 8)
termination_by s.length
decreasing_by
  obtain ⟨hs, -⟩ := breakBefore_eq _hopen
  obtain ⟨hblock, hprefix⟩ := breakBefore_eq _hclose
  have hlength : 8 ≤ closing.length := hprefix.length_le
  rw [hs, hblock, List.length_append, List.length_append, List.length_append, List.length_drop]
  omega

/-- `clean_answer`. -/
def cleanAnswer (text : Text) : Text := trim (stripThinking (trim text))

/-- `lead`. -/
def lead (snippet : Text) : Text :=
  let s := trim snippet
  if 150 < s.length then trimEndBy whiteSpace (s.take 150) ++ ['…'] else s

/-- The bullets of `fallback_text`, from number `i` on. -/
def bullets (i : ℕ) : List Citation → Text
  | [] => []
  | c :: cs =>
    ("- ".toList ++ lead c.snippet ++ " [".toList ++ Nat.toDigits 10 i ++ "]\n".toList) ++ bullets (i + 1) cs

/-- `fallback_text`. -/
def fallbackText (question : Text) (citations : List Citation) : Text :=
  "Here's what I found in your notes about **".toList ++ trim question ++ "**:\n\n".toList ++ bullets 1 citations ++
    "\nClick a citation to open the exact passage.".toList

/-- What is said where nothing was found. -/
def nothingText (question : Text) : Text :=
  "I couldn't find anything about **".toList ++ trim question ++
    "** in this vault.\n\nTry different keywords, or add a note about it.".toList

/-- The loop of `unique_paths`, with the paths it has seen. -/
def uniqueFrom (seen : List Path) : List Citation → List Path
  | [] => []
  | c :: cs => if seen.contains c.path then uniqueFrom seen cs else c.path :: uniqueFrom (c.path :: seen) cs

/-- `unique_paths`. -/
def uniquePaths (citations : List Citation) : List Path := uniqueFrom [] citations

/-- The request to the model. -/
def request (question : Text) (passages : List Passage) (model : Option Text) : GenerateRequest where
  model := model
  system := some systemPrompt
  prompt := buildPrompt question passages
  config := { temperature := some "0.2".toList }

/-- `answer`, of what the call of the model comes to. -/
def answer (question : Text) (passages : List Passage)
    (llm : GenerateRequest → Except LlmError GenerateResponse) (model : Option Text) : AskAnswer :=
  let citations := passages.map toCitation
  let filesRead := uniquePaths citations
  if passages.isEmpty then ⟨nothingText question, filesRead, citations⟩
  else
    match llm (request question passages model) with
    | .ok resp =>
      let text := cleanAnswer resp.text
      ⟨if text.isEmpty then fallbackText question citations else text, filesRead, citations⟩
    | .error _ => ⟨fallbackText question citations, filesRead, citations⟩

/-! ### The markers of the texts that are assembled -/

section Assembled
variable {question : Text} {cs : List Citation} {i n : ℕ}

/-- Texts are apart if the first ends, or the second begins, with a character that no marker has there. -/
theorem apart_of_last {x y : Text} {c : Char} (hx : x.getLast? = some c) (hc : c ≠ '[' ∧ c.isDigit = false) :
    Apart x y := by
  intro d hd e _ hboth
  obtain rfl : c = d := Option.some.inj (hx.symm.trans hd)
  rcases hboth.1 with h | h
  · exact hc.1 h
  · rw [hc.2] at h
    cases h

theorem apart_of_head {x y : Text} (hy : ∀ d ∈ y.head?, d ≠ ']' ∧ d.isDigit = false) : Apart x y := by
  intro c _ d hd hboth
  obtain ⟨hbracket, hdigit⟩ := hy d hd
  rcases hboth.2 with h | h
  · exact hbracket h
  · rw [hdigit] at h
    cases h

theorem apart_of_first {x y : Text} {c : Char} (hy : y.head? = some c) (hc : c ≠ ']' ∧ c.isDigit = false) :
    Apart x y := by
  refine apart_of_head fun d hd => ?_
  obtain rfl : c = d := Option.some.inj (hy.symm.trans hd)
  exact hc

/-- What is said where nothing was found has the markers of the question. -/
theorem hasMarker_nothingText : HasMarker (nothingText question) n ↔ HasMarker (trim question) n := by
  have hstart : ¬ HasMarker "I couldn't find anything about **".toList n := not_hasMarker (by decide)
  have hend : ¬ HasMarker "** in this vault.\n\nTry different keywords, or add a note about it.".toList n :=
    not_hasMarker (by decide)
  unfold nothingText
  rw [hasMarker_append (apart_of_first (c := '*') (by decide) (by decide)),
    hasMarker_append (apart_of_last (c := '*') (by decide) (by decide)), or_iff_left hend, or_iff_right hstart]

/-- The bullet of a citation has its number, and the markers of its snippet. -/
theorem hasMarker_bullet {snippet : Text} : HasMarker ("- ".toList ++ lead snippet ++ " [".toList ++
    Nat.toDigits 10 i ++ "]\n".toList) n ↔ HasMarker (lead snippet) n ∨ n = i := by
  have hsplit : "- ".toList ++ lead snippet ++ " [".toList ++ Nat.toDigits 10 i ++ "]\n".toList =
      ("- ".toList ++ lead snippet) ++ ([' '] ++ ('[' :: (Nat.toDigits 10 i ++ [']']) ++ ['\n'])) := by
    have hopen : " [".toList = [' ', '['] := rfl
    have hclose : "]\n".toList = [']', '\n'] := rfl
    simp [hopen, hclose]
  have hnumber : HasMarker ('[' :: (Nat.toDigits 10 i ++ [']'])) n ↔ n = i := by
    rw [hasMarker_bracketed Nat.toDigits_ne_nil fun d hd => Nat.isDigit_of_mem_toDigits (by omega) (by omega) hd,
      Nat.ofDigitChars_ten_toDigits]
  have hdash : ¬ HasMarker "- ".toList n := not_hasMarker (by decide)
  have hblank : ¬ HasMarker [' '] n := not_hasMarker (by decide)
  have hnewline : ¬ HasMarker ['\n'] n := not_hasMarker (by decide)
  rw [hsplit, hasMarker_append (apart_of_head (by simp)),
    hasMarker_append (apart_of_last (c := ' ') (by decide) (by decide)),
    hasMarker_append (apart_of_last (c := ' ') (by decide) (by decide)),
    hasMarker_append (apart_of_first (c := '\n') (by decide) (by decide)), hnumber, or_iff_left hnewline,
    or_iff_right hblank, or_iff_right hdash]

/-- The bullets have the numbers of the citations, and the markers of the snippets. -/
theorem hasMarker_bullets : HasMarker (bullets i cs) n ↔
    (∃ c ∈ cs, HasMarker (lead c.snippet) n) ∨ i ≤ n ∧ n < i + cs.length := by
  induction cs generalizing i with
  | nil =>
    have hnone : ¬ HasMarker (bullets i []) n := not_hasMarker List.not_mem_nil
    simp [hnone]
  | cons c cs ih =>
    have hhead : ∀ d ∈ (bullets (i + 1) cs).head?, d ≠ ']' ∧ d.isDigit = false := by
      intro d hd
      cases cs with
      | nil => cases hd
      | cons c' cs =>
        obtain rfl : '-' = d := Option.some.inj hd
        decide
    rw [bullets, hasMarker_append (apart_of_head hhead), hasMarker_bullet, ih, List.exists_mem_cons_iff,
      List.length_cons]
    constructor
    · rintro ((h | rfl) | h | h)
      · exact Or.inl (Or.inl h)
      · exact Or.inr (by omega)
      · exact Or.inl (Or.inr h)
      · exact Or.inr (by omega)
    · rintro ((h | h) | h)
      · exact Or.inl (Or.inl h)
      · exact Or.inr (Or.inl h)
      · by_cases hn : n = i
        · exact Or.inl (Or.inr hn)
        · exact Or.inr (Or.inr (by omega))

/-- **The list of sources** has the markers of the question and of the snippets, and a number for each citation. -/
theorem hasMarker_fallbackText : HasMarker (fallbackText question cs) n ↔
    HasMarker (trim question) n ∨ (∃ c ∈ cs, HasMarker (lead c.snippet) n) ∨ 1 ≤ n ∧ n ≤ cs.length := by
  have hstart : ¬ HasMarker "Here's what I found in your notes about **".toList n := not_hasMarker (by decide)
  have hcolon : ¬ HasMarker "**:\n\n".toList n := not_hasMarker (by decide)
  have hclick : ¬ HasMarker "\nClick a citation to open the exact passage.".toList n := not_hasMarker (by decide)
  have hrange : (n < 1 + cs.length) ↔ n ≤ cs.length := by omega
  have hapart : Apart ("Here's what I found in your notes about **".toList ++ trim question ++ "**:\n\n".toList)
      (bullets 1 cs) := by
    refine apart_of_last (c := '\n') ?_ (by decide)
    rw [List.getLast?_append_of_ne_nil _ (by decide)]
    decide
  unfold fallbackText
  rw [hasMarker_append (apart_of_first (c := '\n') (by decide) (by decide)), hasMarker_append hapart,
    hasMarker_append (apart_of_first (c := '*') (by decide) (by decide)),
    hasMarker_append (apart_of_last (c := '*') (by decide) (by decide)), hasMarker_bullets, hrange,
    or_iff_left hclick, or_iff_right hstart, or_iff_left hcolon]

end Assembled

/-! ### The notes an answer draws from -/

/-- The distinct elements of a list, in the order they first appear in. -/
structure FirstAppearances (l out : List Path) : Prop where
  mem : ∀ p, p ∈ out ↔ p ∈ l
  order : out.Pairwise fun p q => l.idxOf p < l.idxOf q

section Paths
variable {p : Path} {seen : List Path} {cs : List Citation}

theorem mem_uniqueFrom : p ∈ uniqueFrom seen cs ↔ p ∉ seen ∧ p ∈ cs.map Citation.path := by
  induction cs generalizing seen with
  | nil => simp [uniqueFrom]
  | cons c cs ih =>
    unfold uniqueFrom
    rw [List.map_cons, List.mem_cons]
    split_ifs with hseen
    · have hmem : c.path ∈ seen := List.contains_iff_mem.mp hseen
      rw [ih]
      constructor
      · exact fun h => ⟨h.1, Or.inr h.2⟩
      · rintro ⟨hp, rfl | hcs⟩
        · exact absurd hmem hp
        · exact ⟨hp, hcs⟩
    · have hmem : c.path ∉ seen := fun hmem => hseen (List.contains_iff_mem.mpr hmem)
      rw [List.mem_cons, ih, List.mem_cons]
      constructor
      · rintro (rfl | ⟨hp, hcs⟩)
        · exact ⟨hmem, Or.inl rfl⟩
        · exact ⟨fun h => hp (Or.inr h), Or.inr hcs⟩
      · rintro ⟨hp, heq | hcs⟩
        · exact Or.inl heq
        · by_cases heq : p = c.path
          · exact Or.inl heq
          · exact Or.inr ⟨fun h => h.elim heq hp, hcs⟩

theorem pairwise_uniqueFrom : (uniqueFrom seen cs).Pairwise fun p q =>
    (cs.map Citation.path).idxOf p < (cs.map Citation.path).idxOf q := by
  induction cs generalizing seen with
  | nil => exact List.Pairwise.nil
  | cons c cs ih =>
    have htail {seen' : List Path} (hc : c.path ∈ seen') : (uniqueFrom seen' cs).Pairwise fun p q =>
        (c.path :: cs.map Citation.path).idxOf p < (c.path :: cs.map Citation.path).idxOf q := by
      have hrest := @ih seen'
      refine List.Pairwise.imp_of_mem ?_ hrest
      intro p q hp hq hlt
      have hp' : c.path ≠ p := fun heq => (mem_uniqueFrom.mp hp).1 (heq ▸ hc)
      have hq' : c.path ≠ q := fun heq => (mem_uniqueFrom.mp hq).1 (heq ▸ hc)
      rw [List.idxOf_cons_ne _ hp', List.idxOf_cons_ne _ hq']
      omega
    unfold uniqueFrom
    rw [List.map_cons]
    split_ifs with hseen
    · exact htail (List.contains_iff_mem.mp hseen)
    · refine List.pairwise_cons.mpr ⟨fun q hq => ?_, htail List.mem_cons_self⟩
      have hq' : c.path ≠ q := fun heq => (mem_uniqueFrom.mp hq).1 (heq ▸ List.mem_cons_self)
      rw [List.idxOf_cons_self, List.idxOf_cons_ne _ hq']
      omega

theorem firstAppearances_uniquePaths : FirstAppearances (cs.map Citation.path) (uniquePaths cs) where
  mem p := by
    rw [uniquePaths, mem_uniqueFrom]
    simp
  order := pairwise_uniqueFrom

end Paths

/-! ### Grounded answers -/

/-- Every marker of the text is the number of one of `k` citations. -/
def InRange (k : ℕ) (text : Text) : Prop := ∀ n, HasMarker text n → 1 ≤ n ∧ n ≤ k

/-- **The answer cites what it was given, and nothing else**: a citation for each passage in order, their notes in the
order they first appear in, a text that is not blank, and markers that refer to the citations. -/
structure Grounded (passages : List Passage) (a : AskAnswer) : Prop where
  citations : a.citations = passages.map toCitation
  filesRead : FirstAppearances (passages.map Passage.path) a.filesRead
  text : trim a.text ≠ []
  markers : InRange a.citations.length a.text

/-- **No bracketed number of others gets into the text**: of the question, if nothing was found; of the reply, if
something is left of it once it is cleaned; of the question and of the leads of the snippets otherwise. -/
def NoStrayMarker (question : Text) (passages : List Passage) (reply : Except LlmError GenerateResponse) : Prop :=
  let sources := InRange passages.length (trim question) ∧
    ∀ p ∈ passages, InRange passages.length (lead (snippet p.body 240))
  if passages.isEmpty then InRange 0 (trim question)
  else
    match reply with
    | .ok resp => if (cleanAnswer resp.text).isEmpty then sources else InRange passages.length (cleanAnswer resp.text)
    | .error _ => sources

section Grounded
variable {question s : Text} {passages : List Passage} {cs : List Citation} {k : ℕ}

theorem trim_append_ne_nil {s' : Text} (h : trim s ≠ []) : trim (s ++ s') ≠ [] := by
  intro hnil
  have hblank : ∀ c ∈ s ++ s', whiteSpace c = true := trimBy_eq_nil_iff.mp hnil
  exact h (trimBy_eq_nil_iff.mpr fun c hc => hblank c (List.mem_append_left s' hc))

theorem trim_trim_ne_nil (h : trim s ≠ []) : trim (trim s) ≠ [] := by
  intro hnil
  have hblank : ∀ c ∈ trim s, whiteSpace c = true := trimBy_eq_nil_iff.mp hnil
  have hcount : (trim s).countP (! whiteSpace ·) = s.countP (! whiteSpace ·) := countP_trimBy
  rw [List.countP_eq_zero.mpr (by simpa using hblank), eq_comm, List.countP_eq_zero] at hcount
  exact h (trimBy_eq_nil_iff.mpr (by simpa using hcount))

theorem nothingText_visible : trim (nothingText question) ≠ [] :=
  trim_append_ne_nil (trim_append_ne_nil (by decide))

theorem fallbackText_visible : trim (fallbackText question cs) ≠ [] :=
  trim_append_ne_nil (trim_append_ne_nil (trim_append_ne_nil (trim_append_ne_nil (by decide))))

theorem inRange_fallbackText : InRange passages.length (fallbackText question (passages.map toCitation)) ↔
    InRange passages.length (trim question) ∧
      ∀ p ∈ passages, InRange passages.length (lead (snippet p.body 240)) := by
  constructor
  · intro h
    refine ⟨fun n hn => h n (hasMarker_fallbackText.mpr (Or.inl hn)), fun p hp n hn => h n ?_⟩
    exact hasMarker_fallbackText.mpr (Or.inr (Or.inl ⟨toCitation p, List.mem_map_of_mem hp, hn⟩))
  · rintro ⟨hquestion, hleads⟩ n hn
    rcases hasMarker_fallbackText.mp hn with hn | ⟨c, hc, hn⟩ | hn
    · exact hquestion n hn
    · obtain ⟨p, hp, rfl⟩ := List.mem_map.mp hc
      exact hleads p hp n hn
    · rwa [List.length_map] at hn

/-- The citations and the notes are the same on every path. -/
theorem grounded_mk (hvisible : trim s ≠ []) :
    Grounded passages ⟨s, uniquePaths (passages.map toCitation), passages.map toCitation⟩ ↔
      InRange passages.length s := by
  have hpaths : (passages.map toCitation).map Citation.path = passages.map Passage.path := by
    rw [List.map_map]
    rfl
  constructor
  · intro h
    have hmarkers : InRange (passages.map toCitation).length s := h.markers
    rwa [List.length_map] at hmarkers
  · intro h
    refine ⟨rfl, hpaths ▸ firstAppearances_uniquePaths, hvisible, ?_⟩
    rw [List.length_map]
    exact h

end Grounded

/-- **An answer is grounded exactly if no bracketed number of others gets into its text.** -/
theorem grounded_iff (question : Text) (passages : List Passage)
    (llm : GenerateRequest → Except LlmError GenerateResponse) (model : Option Text) :
    Grounded passages (answer question passages llm model) ↔
      NoStrayMarker question passages (llm (request question passages model)) := by
  unfold answer NoStrayMarker
  dsimp only
  by_cases hnone : passages.isEmpty = true
  · rw [if_pos hnone, if_pos hnone, grounded_mk nothingText_visible, List.isEmpty_iff.mp hnone, List.length_nil]
    simp only [InRange, hasMarker_nothingText]
  · rw [if_neg hnone, if_neg hnone]
    cases llm (request question passages model) with
    | error e => rw [grounded_mk fallbackText_visible, inRange_fallbackText]
    | ok resp =>
      dsimp only
      by_cases hblank : (cleanAnswer resp.text).isEmpty = true
      · rw [if_pos hblank, if_pos hblank, grounded_mk fallbackText_visible, inRange_fallbackText]
      · have hvisible : trim (cleanAnswer resp.text) ≠ [] :=
          trim_trim_ne_nil fun hnil => hblank (List.isEmpty_iff.mpr hnil)
        rw [if_neg hblank, if_neg hblank, grounded_mk hvisible]

/-- **A question with a number in brackets is answered with a citation that is not there.** -/
theorem question_quoted : ¬ ∀ (question : Text) (passages : List Passage)
    (llm : GenerateRequest → Except LlmError GenerateResponse) (model : Option Text),
    Grounded passages (answer question passages llm model) := by
  intro h
  have hmarkers := (h "[1]".toList [] (fun _ => .error (.transport [])) none).markers
  have hmarker : HasMarker (nothingText "[1]".toList) 1 :=
    hasMarker_nothingText.mpr ⟨[], ['1'], [], by decide, by decide, by simp, by decide⟩
  exact absurd (hmarkers 1 hmarker).2 (by decide)

end Notely.Engine.VaultAnswers
