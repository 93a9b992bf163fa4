import Notely.Engine.Extraction
import Notely.Engine.Normalizing

/-! # Findings similar to an item

`similar` of `ai/synthesis.rs`, and what `reconcile` takes over from the findings that it picks. Two texts are
similar if one occurs in the other, once they are normalized, or if their words overlap enough. A text of three
words or more occurs in another one only with a whole word of it; a shorter one may lie inside of longer words.

* `mem_of_infix`: the inner words of a text that occurs in another one are words of it.
* `related_of_similar`: similar texts share a word, or one of them, of at most two words, occurs in the other.
* `similar_relates`: so `reconcile` takes over nothing from findings that are not related so. -/

namespace Notely.Engine.SimilarTexts

open Notely.Lib.Strings Notely.Engine.Domain Notely.Engine.Analysis Notely.Engine.Synthesis
open Notely.Engine.Extraction (Kind itemsOfKind ascii mem_matchedEvidence)
open Notely.Engine.Normalizing (words word_of_mem words_eq_nil_iff collapseWhitespace_eq_nil_iff)
open Notely.Engine.SearchIndex (Letters)

/-! ### Normalized words -/

/-- A text in lower case, with blanks for everything but letters and digits. -/
def spaced (L : Letters) (s : Text) : Text :=
  (L.toLowercase s).map fun c => if L.isAlphanumeric c then c else ' '

/-- The normalized words of a text. -/
def wordsOf (L : Letters) (s : Text) : List Text := words (spaced L s)

/-- What the tables of Unicode say: a text with a letter or a digit has one in lower case too, and neither is
white space. -/
structure Tables (L : Letters) : Prop where
  keeps : ∀ s, (∃ c ∈ s, L.isAlphanumeric c) → ∃ c ∈ L.toLowercase s, L.isAlphanumeric c
  visible : ∀ c, L.isAlphanumeric c → whiteSpace c = false

/-- Letters and digits of ASCII stay such in lower case, and are no white space. -/
theorem ascii_of_isAlphanum {c : Char} (h : c.isAlphanum = true) :
    c.toLower.isAlphanum = true ∧ whiteSpace c = false := by
  have hall : ∀ n : Fin 128, (Char.ofNat n).isAlphanum = true →
      (Char.ofNat n).toLower.isAlphanum = true ∧ whiteSpace (Char.ofNat n) = false := by decide +kernel
  have hsmall : c.toNat < 128 := by
    have hranges : (decide (c.val ≥ 'A'.val ∧ c.val ≤ 'Z'.val) ||
        decide (c.val ≥ 'a'.val) && decide (c.val ≤ 'z'.val) ||
          decide (c.val ≥ '0'.val) && decide (c.val ≤ '9'.val)) = true := h
    simp only [Bool.or_eq_true, Bool.and_eq_true, decide_eq_true_eq, ge_iff_le,
      UInt32.le_iff_toNat_le] at hranges
    have hval : c.toNat = c.val.toNat := rfl
    have hbounds : ('Z'.val.toNat = 90 ∧ 'z'.val.toNat = 122) ∧ '9'.val.toNat = 57 := by decide
    omega
  have hc := hall ⟨c.toNat, hsmall⟩
  rw [Char.ofNat_toNat] at hc
  exact hc h

theorem tables_ascii : Tables ascii where
  keeps s h := by
    obtain ⟨c, hc, hletter⟩ := h
    exact ⟨c.toLower, List.mem_map_of_mem hc, (ascii_of_isAlphanum hletter).1⟩
  visible c h := (ascii_of_isAlphanum h).2

section Words
variable {L : Letters} {a b s w : Text}

theorem normalize_eq : Synthesis.normalize L s = [' '].intercalate (wordsOf L s) := by
  have hfilter : (fun w : Text => decide (w ≠ [])) = fun w => ! w.isEmpty := by
    funext w
    cases w <;> rfl
  rw [Synthesis.normalize, wordsOf, words, hfilter]
  rfl

theorem normalize_eq_nil_iff : Synthesis.normalize L s = [] ↔ wordsOf L s = [] := by
  rw [normalize_eq]
  exact collapseWhitespace_eq_nil_iff

theorem blank_notMem (h : w ∈ wordsOf L s) : ' ' ∉ w := by
  intro hblank
  have hfalse := (word_of_mem h).2 ' ' hblank
  exact absurd hfalse (by decide)

/-- The words are what the normalized text is split into. -/
theorem splitOn_normalize (h : Synthesis.normalize L s ≠ []) :
    (Synthesis.normalize L s).splitOn ' ' = wordsOf L s := by
  have hne : wordsOf L s ≠ [] := fun hnil => h (normalize_eq_nil_iff.mpr hnil)
  rw [normalize_eq, List.splitOn_intercalate ' ' (fun w hw => blank_notMem hw) hne]

/-- **The second of three words or more** is a word of every text that this one occurs in. -/
theorem mem_of_infix {v u : Text} {ws : List Text} (h : Synthesis.normalize L a <:+: Synthesis.normalize L b)
    (hwords : wordsOf L a = v :: w :: u :: ws) : w ∈ wordsOf L b := by
  obtain ⟨before, after, heq⟩ := h
  have ha : Synthesis.normalize L a = v ++ ' ' :: (w ++ ' ' :: [' '].intercalate (u :: ws)) := by
    rw [normalize_eq, hwords]
    simp [List.intercalate_cons_cons]
  have hb : Synthesis.normalize L b = (before ++ v) ++ ' ' :: (w ++ ' ' :: ([' '].intercalate (u :: ws) ++ after)) := by
    rw [← heq, ha]
    simp only [List.append_assoc, List.cons_append]
  have hne : Synthesis.normalize L b ≠ [] := by
    rw [hb]
    simp
  have hw : ' ' ∉ w := blank_notMem (L := L) (s := a) (by rw [hwords]; simp)
  rw [← splitOn_normalize hne, hb, List.splitOn_append_cons_self, List.splitOn_append_cons_self_of_not_mem hw]
  simp

theorem wordsOf_ne_nil (hL : Tables L) (h : ∃ c ∈ s, L.isAlphanumeric c) : wordsOf L s ≠ [] := by
  obtain ⟨c, hc, hletter⟩ := hL.keeps s h
  intro hnil
  have hblank : ∀ d ∈ spaced L s, whiteSpace d = true := words_eq_nil_iff.mp hnil
  have hmem : c ∈ spaced L s := List.mem_map.mpr ⟨c, hc, if_pos hletter⟩
  have hvisible := hL.visible c hletter
  rw [hblank c hmem] at hvisible
  cases hvisible

end Words

/-! ### Similar texts -/

/-- The texts have a normalized word in common. -/
def ShareWord (L : Letters) (a b : Text) : Prop := ∃ w ∈ wordsOf L a, w ∈ wordsOf L b

/-- One text, of one or two words, occurs in the other. -/
def Inside (L : Letters) (a b : Text) : Prop :=
  0 < (wordsOf L a).length ∧ (wordsOf L a).length ≤ 2 ∧ Synthesis.normalize L a <:+: Synthesis.normalize L b

/-- **The texts share a word, or a short one occurs in the other.** -/
def Related (L : Letters) (a b : Text) : Prop := ShareWord L a b ∨ Inside L a b ∨ Inside L b a

section Similar
variable {L : Letters} {a b : Text}

theorem ShareWord.symm (h : ShareWord L a b) : ShareWord L b a := by
  obtain ⟨w, ha, hb⟩ := h
  exact ⟨w, hb, ha⟩

theorem length_inter_comm {sa sb : List Text} (ha : sa.Nodup) (hb : sb.Nodup) :
    (sa.filter sb.contains).length = (sb.filter sa.contains).length := by
  refine List.Perm.length_eq ((List.perm_ext_iff_of_nodup (ha.filter _) (hb.filter _)).mpr fun w => ?_)
  simp [and_comm]

theorem length_union_comm (sa sb : List Text) : (sa ++ sb).dedup.length = (sb ++ sa).dedup.length :=
  (List.perm_append_comm.dedup).length_eq

theorem similar_comm : similar L a b = similar L b a := by
  have hinter := length_inter_comm (List.nodup_dedup ((Synthesis.normalize L a).splitOn ' '))
    (List.nodup_dedup ((Synthesis.normalize L b).splitOn ' '))
  have hunion := length_union_comm ((Synthesis.normalize L a).splitOn ' ').dedup
    ((Synthesis.normalize L b).splitOn ' ').dedup
  unfold similar
  dsimp only
  rw [hinter, hunion]
  simp only [or_comm]

theorem similar_self (hL : Tables L) (h : ∃ c ∈ a, L.isAlphanumeric c) : similar L a a = true := by
  have hne : ¬ (Synthesis.normalize L a = [] ∨ Synthesis.normalize L a = []) := by
    rw [or_self, normalize_eq_nil_iff]
    exact wordsOf_ne_nil hL h
  unfold similar
  dsimp only
  rw [if_neg hne, if_pos (Or.inl List.infix_rfl)]

/-- A text that occurs in another one shares a word with it, or is short. -/
theorem related_of_infix (hne : Synthesis.normalize L a ≠ [])
    (h : Synthesis.normalize L a <:+: Synthesis.normalize L b) : ShareWord L a b ∨ Inside L a b := by
  have hpos : 0 < (wordsOf L a).length :=
    List.length_pos_of_ne_nil fun hnil => hne (normalize_eq_nil_iff.mpr hnil)
  by_cases hshort : (wordsOf L a).length ≤ 2
  · exact Or.inr ⟨hpos, hshort, h⟩
  · left
    rcases hwords : wordsOf L a with _ | ⟨v, _ | ⟨w, _ | ⟨u, ws⟩⟩⟩
    · simp [hwords] at hpos
    · simp [hwords] at hshort
    · simp [hwords] at hshort
    · exact ⟨w, by simp [hwords], mem_of_infix h hwords⟩

/-- **Similar texts are related.** -/
theorem related_of_similar (h : similar L a b = true) : Related L a b := by
  unfold similar at h
  dsimp only at h
  split_ifs at h with hnil hinfix
  · push Not at hnil
    rcases hinfix with hinfix | hinfix
    · rcases related_of_infix hnil.2 hinfix with hshare | hinside
      · exact Or.inl hshare.symm
      · exact Or.inr (Or.inr hinside)
    · rcases related_of_infix hnil.1 hinfix with hshare | hinside
      · exact Or.inl hshare
      · exact Or.inr (Or.inl hinside)
  · push Not at hnil
    rw [splitOn_normalize hnil.1, splitOn_normalize hnil.2, decide_eq_true_eq] at h
    have hpos : 0 < ((wordsOf L a).dedup.filter (wordsOf L b).dedup.contains).length := by omega
    obtain ⟨w, hw⟩ := List.exists_mem_of_length_pos hpos
    simp only [List.mem_filter, List.mem_dedup, List.contains_iff_mem] at hw
    exact Or.inl ⟨w, hw.1, hw.2⟩

end Similar

/-! ### What is taken over -/

/-- The findings of a kind: their texts and their evidence. -/
def mergedOfKind (m : MergedFindings) : Kind → List (Text × List Evidence)
  | .decision => pool Decision.decision Decision.evidence m.decisions
  | .actionItem => pool ActionItem.description ActionItem.evidence m.actionItems
  | .topic => pool Topic.title Topic.evidence m.topics
  | .openQuestion => pool OpenQuestion.question OpenQuestion.evidence m.openQuestions
  | .risk => pool Risk.description Risk.evidence m.risks

/-- The field of `b` is that of `a`, or of a finding related to `a`. -/
def TakenOver (L : Letters) (m : MergedFindings) (fieldOf : ActionItem → Option Text) (a b : ActionItem) : Prop :=
  ∀ v ∈ fieldOf b, fieldOf a = some v ∨
    ∃ s ∈ m.actionItems, Related L a.description s.description ∧ fieldOf s = some v

/-- **Only related findings are used**: what the items of `out` have beyond those of `ir`, one by one, is of findings
related to them. -/
structure UsesRelated (L : Letters) (m : MergedFindings) (ir out : MeetingIr) : Prop where
  evidence : ∀ k, List.Forall₂ (fun x y => y.1 = x.1 ∧
    ∀ ev ∈ y.2, ev ∈ x.2 ∨ ∃ z ∈ mergedOfKind m k, Related L x.1 z.1 ∧ ev ∈ z.2) (itemsOfKind ir k) (itemsOfKind out k)
  owners : List.Forall₂ (TakenOver L m ActionItem.owner) ir.actionItems out.actionItems
  deadlines : List.Forall₂ (TakenOver L m ActionItem.deadline) ir.actionItems out.actionItems

section Reconcile
variable {L : Letters} {ir : MeetingIr} {m : MergedFindings} {t : Transcript} {a : ActionItem} {lower v : Text}
  {sources : List ActionItem} {fieldOf : ActionItem → Option Text}

theorem itemsOfKind_reconcile {k : Kind} : itemsOfKind (reconcile L ir m t) k =
    (itemsOfKind ir k).map fun x => (x.1, attach x.2 (matchedEvidence L x.1 (mergedOfKind m k))) := by
  cases k <;>
    simp [itemsOfKind, reconcile, mergedOfKind, pool, reconcileAction, flatMap_filter_similar]

/-- A value that is kept is the one looked at. -/
theorem eq_of_guardField {value : Option Text} (h : guardField L value sources fieldOf lower = some v) :
    value = some v := by
  obtain ⟨u, hu, hkept⟩ := Option.bind_eq_some_iff.mp h
  dsimp only at hkept
  split_ifs at hkept
  rw [hu, Option.some.inj hkept]

theorem taken_of_or {value : Option Text} (h : value.or (sources.findSome? fieldOf) = some v) :
    value = some v ∨ ∃ s ∈ sources, fieldOf s = some v := by
  rcases Option.or_eq_some_iff.mp h with hown | ⟨-, hfound⟩
  · exact Or.inl hown
  · exact Or.inr (List.exists_of_findSome?_eq_some hfound)

theorem takenOver_guard (fieldOf : ActionItem → Option Text)
    (h : guardField L ((fieldOf a).or ((m.actionItems.filter fun s => similar L a.description s.description).findSome?
      fieldOf)) (m.actionItems.filter fun s => similar L a.description s.description) fieldOf lower = some v) :
    fieldOf a = some v ∨ ∃ s ∈ m.actionItems, Related L a.description s.description ∧ fieldOf s = some v := by
  rcases taken_of_or (eq_of_guardField h) with hown | ⟨s, hs, hstated⟩
  · exact Or.inl hown
  · obtain ⟨hmem, hsimilar⟩ := List.mem_filter.mp hs
    exact Or.inr ⟨s, hmem, related_of_similar hsimilar, hstated⟩

theorem usesRelated_reconcile : UsesRelated L m ir (reconcile L ir m t) where
  evidence k := by
    rw [itemsOfKind_reconcile, List.forall₂_map_right_iff, List.forall₂_same]
    refine fun x _ => ⟨rfl, fun ev hev => ?_⟩
    rcases mem_attach hev with hfound | ⟨-, hown⟩
    · obtain ⟨z, hz, hsimilar, hev⟩ := mem_matchedEvidence.mp hfound
      exact Or.inr ⟨z, hz, related_of_similar hsimilar, hev⟩
    · exact Or.inl hown
  owners := by
    rw [show (reconcile L ir m t).actionItems = ir.actionItems.map _ from rfl, List.forall₂_map_right_iff,
      List.forall₂_same]
    exact fun a _ v hv => takenOver_guard ActionItem.owner hv
  deadlines := by
    rw [show (reconcile L ir m t).actionItems = ir.actionItems.map _ from rfl, List.forall₂_map_right_iff,
      List.forall₂_same]
    exact fun a _ v hv => takenOver_guard ActionItem.deadline hv

end Reconcile

/-- **Similar texts share a word, or a short one occurs in the other, and `reconcile` uses only findings related so.**
`similar` is symmetric, and true of a text with itself that has a letter or a digit. -/
theorem similar_relates (L : Letters) (hL : Tables L) :
    (∀ a b, similar L a b = similar L b a) ∧ (∀ a, (∃ c ∈ a, L.isAlphanumeric c) → similar L a a = true) ∧
      (∀ a b, similar L a b = true → Related L a b) ∧
        ∀ ir m t, UsesRelated L m ir (reconcile L ir m t) :=
  ⟨fun _ _ => similar_comm, fun _ => similar_self hL, fun _ _ => related_of_similar,
    fun _ _ _ => usesRelated_reconcile⟩

theorem similar_relates_ascii : (∀ a b, similar ascii a b = similar ascii b a) ∧
    (∀ a, (∃ c ∈ a, ascii.isAlphanumeric c) → similar ascii a a = true) ∧
      (∀ a b, similar ascii a b = true → Related ascii a b) ∧
        ∀ ir m t, UsesRelated ascii m ir (reconcile ascii ir m t) :=
  similar_relates ascii tables_ascii

/-- **A single letter is similar to every word that has it.** -/
theorem similar_inside : ¬ ∀ L, Tables L → ∀ a b, similar L a b = true → ShareWord L a b := by
  intro h
  obtain ⟨w, ha, hb⟩ := h ascii tables_ascii "a".toList "cat".toList (by decide +kernel)
  have hwords : wordsOf ascii "a".toList = ["a".toList] ∧ wordsOf ascii "cat".toList = ["cat".toList] := by
    decide +kernel
  rw [hwords.1, List.mem_singleton] at ha
  rw [hwords.2, List.mem_singleton, ha] at hb
  exact absurd hb (by decide)

end Notely.Engine.SimilarTexts
