import Mathlib.Data.Finset.Card
import Notely.Engine.Extraction
import Notely.Lib.Maxima

/-! # The provenance of a finding

`ai/extraction.rs`: what `parse_findings` makes of the evidence of an item. Without a usable quote the item is
grounded in the chunk; with one the entries of the model are kept, and only what they leave out is filled in.

* `bestSegment_eq_some`: the best segment is the earliest of those that share most words with the item.
* `parseFindings_grounds`: what an item without a usable quote ends with.
* `stamped_iff`: when every entry names the chunk it was extracted from. -/

namespace Notely.Engine.Grounding

open Notely.Lib.Strings Notely.Lib.Maxima Notely.Engine.Domain Notely.Engine.Preprocess Notely.Engine.Analysis
open Notely.Engine.Synthesis Notely.Engine.Extraction
open Notely.Engine.SearchIndex (Letters)
open Notely.Engine.Chunker (trim)

/-! ### Shared words -/

/-- The words that two texts share. -/
def sharedWords (L : Letters) (a b : Text) : Finset Text := (wordSet L a).toFinset ∩ (wordSet L b).toFinset

/-- How many words a segment shares with the text of an item. -/
def shares (L : Letters) (itemText : Text) (seg : TranscriptSegment) : ℕ := (sharedWords L itemText seg.text).card

/-- A segment quoted word by word. -/
def verbatim (chunk : Chunk) (seg : TranscriptSegment) : Evidence where
  quote := seg.text
  speakerId := seg.speakerId
  start := some seg.start
  «end» := some seg.end
  chunkId := some chunk.id

/-- The entry that tells the time range of the chunk and quotes nothing. -/
def marker (chunk : Chunk) : Evidence where
  start := some chunk.start
  «end» := some chunk.end
  chunkId := some chunk.id

section Best
variable {L : Letters} {itemText : Text} {chunk : Chunk} {seg : TranscriptSegment} {ev : Evidence}
  {seen segs : List TranscriptSegment}

theorem overlap_wordSet : overlap L (wordSet L itemText) seg = shares L itemText seg := by
  have hnodup : ((wordSet L seg.text).filter (wordSet L itemText).contains).Nodup :=
    (List.nodup_dedup _).filter _
  rw [overlap, ← List.toFinset_card_of_nodup hnodup, shares, sharedWords]
  congr 1
  ext w
  simp [and_comm]

/-- What the scan knows of the segments it has seen. -/
def Scanned (worth : TranscriptSegment → ℕ) (seen : List TranscriptSegment) :
    Option (ℕ × TranscriptSegment) → Prop
  | none => ∀ seg ∈ seen, worth seg = 0
  | some (n, seg) => n = worth seg ∧ 0 < n ∧ EarliestMax worth seen seg

/-- **One segment more.** -/
theorem scanned_snoc {needle : List Text} {best : Option (ℕ × TranscriptSegment)} (seg : TranscriptSegment)
    (h : Scanned (overlap L needle) seen best) : Scanned (overlap L needle) (seen ++ [seg])
      (if overlap L needle seg = 0 then best
        else if (best.map fun b => decide (b.1 < overlap L needle seg)).getD true then
          some (overlap L needle seg, seg)
        else best) := by
  rcases best with _ | ⟨n, top⟩
  · have hzero : ∀ s ∈ seen, overlap L needle s = 0 := h
    by_cases hseg : overlap L needle seg = 0
    · rw [if_pos hseg]
      intro s hs
      rcases List.mem_append.mp hs with hs | hs
      · exact hzero s hs
      · rw [List.mem_singleton.mp hs, hseg]
    · rw [if_neg hseg, if_pos (by simp)]
      refine ⟨rfl, Nat.pos_of_ne_zero hseg, EarliestMax.better fun s hs => ?_⟩
      rw [hzero s hs]
      exact Nat.pos_of_ne_zero hseg
  · obtain ⟨rfl, hpos, hmax⟩ := h
    by_cases hseg : overlap L needle seg = 0
    · rw [if_pos hseg]
      exact ⟨rfl, hpos, hmax.snoc (by omega)⟩
    · rw [if_neg hseg]
      by_cases hlt : overlap L needle top < overlap L needle seg
      · rw [if_pos (by simpa using hlt)]
        exact ⟨rfl, Nat.pos_of_ne_zero hseg, EarliestMax.better fun s hs => (hmax.most s hs).trans_lt hlt⟩
      · rw [if_neg (by simpa using hlt)]
        exact ⟨rfl, hpos, hmax.snoc (not_lt.mp hlt)⟩

/-- The scan finds the earliest segment with the largest overlap. -/
theorem scanned_bestFrom {needle : List Text} {best : Option (ℕ × TranscriptSegment)}
    (h : Scanned (overlap L needle) seen best) :
    Scanned (overlap L needle) (seen ++ segs) (bestFrom L needle best segs) := by
  induction segs generalizing seen best with
  | nil =>
    rw [List.append_nil]
    exact h
  | cons seg segs ih =>
    have hstep := ih (scanned_snoc seg h)
    rw [List.append_assoc, List.singleton_append] at hstep
    unfold bestFrom
    dsimp only
    split_ifs at hstep ⊢ <;> exact hstep

theorem scanned_best : Scanned (shares L itemText) chunk.segments
    (bestFrom L (wordSet L itemText) none chunk.segments) := by
  have hscan : Scanned (overlap L (wordSet L itemText)) ([] ++ chunk.segments)
      (bestFrom L (wordSet L itemText) none chunk.segments) :=
    scanned_bestFrom fun seg hseg => absurd hseg List.not_mem_nil
  rwa [show overlap L (wordSet L itemText) = shares L itemText from funext fun _ => overlap_wordSet,
    List.nil_append] at hscan

/-- **The best segment** is the earliest of those that share most words with the item. -/
theorem bestSegment_eq_some (h : bestSegment L itemText chunk = some ev) :
    ∃ seg, 0 < shares L itemText seg ∧ EarliestMax (shares L itemText) chunk.segments seg ∧
      ev = verbatim chunk seg := by
  unfold bestSegment at h
  dsimp only at h
  split_ifs at h
  obtain ⟨⟨n, seg⟩, hbest, rfl⟩ := Option.map_eq_some_iff.mp h
  have hscan : Scanned (shares L itemText) chunk.segments (some (n, seg)) := hbest ▸ scanned_best
  obtain ⟨rfl, hpos, hmax⟩ := hscan
  exact ⟨seg, hpos, hmax, rfl⟩

/-- There is none exactly if no segment shares a word. -/
theorem bestSegment_eq_none (h : bestSegment L itemText chunk = none) (hseg : seg ∈ chunk.segments) :
    shares L itemText seg = 0 := by
  unfold bestSegment at h
  dsimp only at h
  split_ifs at h with hnil
  · simp [shares, sharedWords, hnil]
  · have hscan : Scanned (shares L itemText) chunk.segments none := Option.map_eq_none_iff.mp h ▸ scanned_best
    exact hscan seg hseg

end Best

/-! ### An item without a usable quote -/

/-- No entry has a quote that is not blank. -/
def Unquoted (evidence : List Evidence) : Prop := ∀ ev ∈ evidence, trim ev.quote = []

/-- **The evidence is the best real segment**: the one entry quotes the earliest of the segments that share most
words with the item, or marks the chunk when none shares a word. -/
structure Grounded (L : Letters) (chunk : Chunk) (itemText : Text) (evidence : List Evidence) : Prop where
  best : (∃ seg ∈ chunk.segments, (sharedWords L itemText seg.text).Nonempty) →
    ∃ seg, EarliestMax (shares L itemText) chunk.segments seg ∧ evidence = [verbatim chunk seg]
  marked : (∀ seg ∈ chunk.segments, sharedWords L itemText seg.text = ∅) → evidence = [marker chunk]

section Unquoted
variable {L : Letters} {S : Serde} {raw itemText : Text} {chunk : Chunk} {f read : ChunkFindings}
  {evidence : List Evidence} {ev : Evidence}

theorem not_unquoted_iff : ¬ Unquoted evidence ↔ evidence.any (fun e => trim e.quote ≠ []) = true := by
  simp [Unquoted]

theorem ground_of_unquoted (h : Unquoted evidence) : Grounded L chunk itemText (ground L evidence itemText chunk) := by
  have hany : ¬ (evidence.any fun e => trim e.quote ≠ []) = true := fun hany => not_unquoted_iff.mpr hany h
  unfold ground
  rw [if_neg hany]
  cases hbest : bestSegment L itemText chunk with
  | none =>
    refine ⟨?_, fun _ => rfl⟩
    rintro ⟨seg, hseg, hword⟩
    have hzero : shares L itemText seg = 0 := bestSegment_eq_none hbest hseg
    exact absurd (Finset.card_eq_zero.mp hzero) hword.ne_empty
  | some best =>
    obtain ⟨seg, hpos, hmax, rfl⟩ := bestSegment_eq_some hbest
    refine ⟨fun _ => ⟨seg, hmax, rfl⟩, fun hnone => ?_⟩
    rw [shares, hnone seg hmax.mem] at hpos
    exact absurd hpos (lt_irrefl 0)

theorem findings_of_parse (h : parseFindings L S raw chunk = .ok f) :
    ∃ read, S.findings (stripToJsonObject raw) = .ok read ∧ f = stampProvenance L chunk read :=
  parseFindings_eq_ok (c := (chunk, raw)).mp h

/-- **Grounding picks the best real segment**: item by item, in all five kinds, an item without a usable quote
ends with it, and no item ends without evidence. -/
theorem parseFindings_grounds (h : parseFindings L S raw chunk = .ok f) :
    ∃ read, S.findings (stripToJsonObject raw) = .ok read ∧ ∀ k,
      List.Forall₂ (fun x y => y.1 = x.1 ∧ y.2 ≠ [] ∧ (Unquoted x.2 → Grounded L chunk x.1 y.2))
        (findingsOf read k) (findingsOf f k) := by
  obtain ⟨read, hread, rfl⟩ := findings_of_parse h
  refine ⟨read, hread, fun k => ?_⟩
  rw [findingsOf_stamp, List.forall₂_map_right_iff, List.forall₂_same]
  exact fun x _ => ⟨rfl, ground_ne_nil, ground_of_unquoted⟩

end Unquoted

/-- The chunk of a meeting of one segment. -/
def shippingChunk : Chunk := toChunk shipping.segments 0 (0, 1)

/-- A decision without evidence is grounded in what was said. -/
theorem parseFindings_grounds_unquoted : ∃ read, shippingSerde.findings (stripToJsonObject unquoted) = .ok read ∧
    ∀ k, List.Forall₂ (fun x y => y.1 = x.1 ∧ y.2 ≠ [] ∧
      (Unquoted x.2 → Grounded ascii shippingChunk x.1 y.2))
        (findingsOf read k) (findingsOf (stampProvenance ascii shippingChunk
          { decisions := [{ decision := "ship".toList }] }) k) :=
  parseFindings_grounds (show parseFindings ascii shippingSerde unquoted shippingChunk = .ok _ from rfl)

/-! ### Whose provenance -/

/-- **The provenance of the chunk**: its id, and a time range. -/
structure Stamped (chunk : Chunk) (ev : Evidence) : Prop where
  chunkId : ev.chunkId = some chunk.id
  start : ev.start.isSome
  «end» : ev.end.isSome

/-- If a quote of the item is usable, no entry of it names another chunk. -/
def NamesNoOther (chunk : Chunk) (evidence : List Evidence) : Prop :=
  ¬ Unquoted evidence → ∀ ev ∈ evidence, ∀ id ∈ ev.chunkId, id = chunk.id

section Stamped
variable {L : Letters} {S : Serde} {raw itemText : Text} {chunk : Chunk} {f : ChunkFindings}
  {evidence : List Evidence} {ev : Evidence}

/-- What the model left out is filled in, what it wrote is kept. -/
theorem stamped_stampEvidence : Stamped chunk (stampEvidence chunk ev) ↔ ∀ id ∈ ev.chunkId, id = chunk.id := by
  have hid : (stampEvidence chunk ev).chunkId = some (ev.chunkId.getD chunk.id) := rfl
  constructor
  · intro h id hev
    have hname := h.chunkId
    rw [hid, Option.mem_def.mp hev] at hname
    exact Option.some.inj hname
  · intro h
    refine ⟨?_, rfl, rfl⟩
    rw [hid]
    cases hev : ev.chunkId with
    | none => rfl
    | some id => rw [Option.getD_some, h id hev]

theorem stamped_verbatim {seg : TranscriptSegment} : Stamped chunk (verbatim chunk seg) := ⟨rfl, rfl, rfl⟩

theorem stamped_marker : Stamped chunk (marker chunk) := ⟨rfl, rfl, rfl⟩

/-- **Grounding one item.** -/
theorem stamped_ground_iff :
    (∀ ev ∈ ground L evidence itemText chunk, Stamped chunk ev) ↔ NamesNoOther chunk evidence := by
  unfold NamesNoOther ground
  by_cases hquote : Unquoted evidence
  · have hany : ¬ (evidence.any fun e => trim e.quote ≠ []) = true := fun hany => not_unquoted_iff.mpr hany hquote
    rw [if_neg hany]
    refine iff_of_true ?_ fun hnot => absurd hquote hnot
    cases hbest : bestSegment L itemText chunk with
    | none =>
      intro ev hev
      rw [List.mem_singleton.mp hev]
      exact stamped_marker
    | some best =>
      obtain ⟨seg, -, -, rfl⟩ := bestSegment_eq_some hbest
      intro ev hev
      rw [List.mem_singleton.mp hev]
      exact stamped_verbatim
  · rw [if_pos (not_unquoted_iff.mp hquote)]
    simp only [List.forall_mem_map, stamped_stampEvidence]
    exact ⟨fun h _ => h, fun h => h hquote⟩

/-- **Every entry has the provenance of the chunk exactly if the model named no other one** in the evidence of an
item with a usable quote. -/
theorem stamped_iff (h : parseFindings L S raw chunk = .ok f) :
    (∀ k, ∀ x ∈ findingsOf f k, ∀ ev ∈ x.2, Stamped chunk ev) ↔
      ∃ read, S.findings (stripToJsonObject raw) = .ok read ∧ ∀ k, ∀ x ∈ findingsOf read k, NamesNoOther chunk x.2 := by
  obtain ⟨read, hread, rfl⟩ := findings_of_parse h
  simp only [hread, Except.ok.injEq, exists_eq_left', findingsOf_stamp, List.forall_mem_map, stamped_ground_iff]

end Stamped

theorem stamped_unquoted : (∀ k, ∀ x ∈ findingsOf (stampProvenance ascii shippingChunk
      { decisions := [{ decision := "ship".toList }] }) k, ∀ ev ∈ x.2, Stamped shippingChunk ev) ↔
    ∃ read, shippingSerde.findings (stripToJsonObject unquoted) = .ok read ∧
      ∀ k, ∀ x ∈ findingsOf read k, NamesNoOther shippingChunk x.2 :=
  stamped_iff (show parseFindings ascii shippingSerde unquoted shippingChunk = .ok _ from rfl)

/-- A topic with a quote, and with the id of a chunk of the model's own. -/
def misattributed : ChunkFindings where
  topics := [{ title := "go".toList, evidence := [{ quote := "ship it".toList, chunkId := some "x".toList }] }]

/-- The reply it is read from. -/
def misattributing : Text :=
  "\x7b\"topics\":[\x7b\"title\":\"go\",\"evidence\":[\x7b\"quote\":\"ship it\",\"chunk_id\":\"x\"\x7d]\x7d]\x7d".toList

/-- What is read from that reply. -/
def misattributingSerde : Serde where
  findings s := if s = misattributing then .ok misattributed else .error "expected value".toList
  ir _ := .error "expected value".toList

/-- **A chunk that the model named is kept**, whichever chunk the reply is for. -/
theorem misattributed_kept : ¬ ∀ (L : Letters) (S : Serde) (raw : Text) (chunk : Chunk) (f : ChunkFindings),
    parseFindings L S raw chunk = .ok f → ∀ k, ∀ x ∈ findingsOf f k, ∀ ev ∈ x.2, Stamped chunk ev := by
  intro h
  have hstamped := h ascii misattributingSerde misattributing shippingChunk _ rfl .topic
    ("go".toList, [stampEvidence shippingChunk { quote := "ship it".toList, chunkId := some "x".toList }])
    List.mem_cons_self _ List.mem_cons_self
  exact absurd hstamped.chunkId (by decide)

end Notely.Engine.Grounding
