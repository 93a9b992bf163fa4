import Notely.Engine.Preprocess
import Notely.Engine.Synthesis

/-! # The quotes of a representation

`ai/extraction.rs`, and both passes over the replies of the model. A finding without a quote is grounded in the
segment of its chunk that shares most words with it; a quote that the model wrote itself is kept as it is, in
both passes. What serde reads from a reply is left open (`Serde`).

* `supported_ground`: the quotes of a finding once it is grounded.
* `supported_found`: the quotes that `reconcile` finds for an item.
* `quotes_supported_iff`: when every quote of the representation is in the chunk it names. -/

namespace Notely.Engine.Extraction

open Notely.Lib.Strings Notely.Engine.Domain Notely.Engine.Preprocess Notely.Engine.Analysis Notely.Engine.Synthesis
open Notely.Engine.SearchIndex (Letters)
open Notely.Engine.Chunker (trim)
open Notely.Lib.Utf8 (encode)

/-! ### Grounding -/

/-- `strip_to_json_object`. -/
def stripToJsonObject (raw : Text) : Text :=
  let body := (raw.dropWhile (· ≠ '{')).rdropWhile (· ≠ '}')
  if body = [] then trim raw else body

/-- `word_set`. -/
def wordSet (L : Letters) (s : Text) : List Text :=
  (((L.toLowercase s).splitOnP fun c => ! L.isAlphanumeric c).filter fun w => 2 < (encode w).length).dedup

/-- How many words a segment shares with the needle. -/
def overlap (L : Letters) (needle : List Text) (seg : TranscriptSegment) : ℕ :=
  ((wordSet L seg.text).filter needle.contains).length

/-- The loop of `best_segment`, with the best segment so far. -/
def bestFrom (L : Letters) (needle : List Text) :
    Option (ℕ × TranscriptSegment) → List TranscriptSegment → Option (ℕ × TranscriptSegment)
  | best, [] => best
  | best, seg :: segs =>
    let n := overlap L needle seg
    if n = 0 then bestFrom L needle best segs
    else if (best.map fun b => decide (b.1 < n)).getD true then bestFrom L needle (some (n, seg)) segs
    else bestFrom L needle best segs

/-- `best_segment`. -/
def bestSegment (L : Letters) (itemText : Text) (chunk : Chunk) : Option Evidence :=
  let needle := wordSet L itemText
  if needle = [] then none
  else (bestFrom L needle none chunk.segments).map fun (_, seg) =>
    { quote := seg.text
      speakerId := seg.speakerId
      start := some seg.start
      «end» := some seg.end
      chunkId := some chunk.id }

/-- Missing provenance filled in. -/
def stampEvidence (chunk : Chunk) (ev : Evidence) : Evidence :=
  { ev with
    chunkId := some (ev.chunkId.getD chunk.id)
    start := some (ev.start.getD chunk.start)
    «end» := some (ev.end.getD chunk.end) }

/-- `ground`. -/
def ground (L : Letters) (evidence : List Evidence) (itemText : Text) (chunk : Chunk) : List Evidence :=
  if evidence.any fun e => trim e.quote ≠ [] then evidence.map (stampEvidence chunk)
  else
    match bestSegment L itemText chunk with
    | some ev => [ev]
    | none => [{ start := some chunk.start, «end» := some chunk.end, chunkId := some chunk.id }]

/-- `stamp_provenance`. -/
def stampProvenance (L : Letters) (chunk : Chunk) (f : ChunkFindings) : ChunkFindings where
  chunkId := chunk.id
  topics := f.topics.map fun t => { t with evidence := ground L t.evidence t.title chunk }
  decisions := f.decisions.map fun d => { d with evidence := ground L d.evidence d.decision chunk }
  actionItems := f.actionItems.map fun a => { a with evidence := ground L a.evidence a.description chunk }
  openQuestions := f.openQuestions.map fun q => { q with evidence := ground L q.evidence q.question chunk }
  risks := f.risks.map fun r => { r with evidence := ground L r.evidence r.description chunk }

/-! ### Both passes -/

/-- `serde_json::from_str` at the two types of reply, with the text of its error. -/
structure Serde where
  findings : Text → Except Text ChunkFindings
  ir : Text → Except Text MeetingIr

/-- `parse_findings`. -/
def parseFindings (L : Letters) (S : Serde) (raw : Text) (chunk : Chunk) : Except AiError ChunkFindings :=
  ((S.findings (stripToJsonObject raw)).mapError .parse).map (stampProvenance L chunk)

/-- `parse_ir`. -/
def parseIr (S : Serde) (raw : Text) : Except AiError MeetingIr :=
  (S.ir (stripToJsonObject raw)).mapError .parse

/-- The two passes over a transcript: a reply for each chunk, and one for the findings. -/
def analyzed (L : Letters) (S : Serde) (p : PreparedTranscript) (replies : List Text) (reply : Text) :
    Except AiError MeetingIr := do
  let findings ← (p.chunks.zip replies).mapM fun (chunk, raw) => parseFindings L S raw chunk
  let ir ← parseIr S reply
  return reconcile L ir (.fromChunks findings) p.normalized

/-! ### Items by their kind -/

/-- The kinds of items that carry evidence. -/
inductive Kind
  | decision
  | actionItem
  | topic
  | openQuestion
  | risk

/-- The findings of a kind: their texts and their evidence. -/
def findingsOf (f : ChunkFindings) : Kind → List (Text × List Evidence)
  | .decision => pool Decision.decision Decision.evidence f.decisions
  | .actionItem => pool ActionItem.description ActionItem.evidence f.actionItems
  | .topic => pool Topic.title Topic.evidence f.topics
  | .openQuestion => pool OpenQuestion.question OpenQuestion.evidence f.openQuestions
  | .risk => pool Risk.description Risk.evidence f.risks

/-- The items of a kind: their texts and their evidence. -/
def itemsOfKind (ir : MeetingIr) : Kind → List (Text × List Evidence)
  | .decision => pool Decision.decision Decision.evidence ir.decisions
  | .actionItem => pool ActionItem.description ActionItem.evidence ir.actionItems
  | .topic => pool Topic.title Topic.evidence ir.topics
  | .openQuestion => pool OpenQuestion.question OpenQuestion.evidence ir.openQuestions
  | .risk => pool Risk.description Risk.evidence ir.risks

section Kinds
variable {L : Letters} {chunk : Chunk} {f : ChunkFindings} {findings : List ChunkFindings} {ir : MeetingIr} {k : Kind}

theorem findingsOf_stamp : findingsOf (stampProvenance L chunk f) k =
    (findingsOf f k).map fun x => (x.1, ground L x.2 x.1 chunk) := by
  cases k <;> simp [findingsOf, stampProvenance, pool]

theorem pool_flatMap {α β : Type} {text : α → Text} {evidence : α → List Evidence} {g : β → List α}
    {bs : List β} : pool text evidence (bs.flatMap g) = bs.flatMap fun b => pool text evidence (g b) :=
  List.map_flatMap

/-- The items of a representation, by their kinds. -/
theorem mem_items {i : Item} : i ∈ items ir (.fromChunks findings) ↔
    ∃ k, ∃ x ∈ itemsOfKind ir k, i = ⟨x.1, x.2, findings.flatMap (findingsOf · k)⟩ := by
  have hkind {α : Type} {text : α → Text} {evidence : α → List Evidence} {g : ChunkFindings → List α} {xs : List α} :
      i ∈ itemsOf text evidence (findings.flatMap g) xs ↔
        ∃ x ∈ pool text evidence xs, i = ⟨x.1, x.2, findings.flatMap fun f => pool text evidence (g f)⟩ := by
    simp only [itemsOf, pool_flatMap]
    constructor
    · intro h
      obtain ⟨x, hx, rfl⟩ := List.mem_map.mp h
      exact ⟨_, List.mem_map_of_mem hx, rfl⟩
    · rintro ⟨y, hy, rfl⟩
      obtain ⟨x, hx, rfl⟩ := List.mem_map.mp hy
      exact List.mem_map.mpr ⟨x, hx, rfl⟩
  simp only [items, MergedFindings.fromChunks, List.mem_append, hkind]
  constructor
  · rintro ((((h | h) | h) | h) | h)
    · exact ⟨.decision, h⟩
    · exact ⟨.actionItem, h⟩
    · exact ⟨.topic, h⟩
    · exact ⟨.openQuestion, h⟩
    · exact ⟨.risk, h⟩
  · rintro ⟨k, h⟩
    cases k with
    | decision => exact Or.inl (Or.inl (Or.inl (Or.inl h)))
    | actionItem => exact Or.inl (Or.inl (Or.inl (Or.inr h)))
    | topic => exact Or.inl (Or.inl (Or.inr h))
    | openQuestion => exact Or.inl (Or.inr h)
    | risk => exact Or.inr h

end Kinds

/-! ### Quotes -/

/-- A text up to case and white space. -/
def squash (L : Letters) (s : Text) : Text := collapseWhitespace (L.toLowercase s)

/-- The quote occurs, up to case and white space, in consecutive segments of the chunk. -/
def Occurs (L : Letters) (quote : Text) (chunk : Chunk) : Prop :=
  ∃ segs, segs <:+: chunk.segments ∧ squash L quote <:+: squash L ([' '].intercalate (segs.map TranscriptSegment.text))

/-- **A quote that is not blank occurs in the chunk that the evidence names.** -/
def Supported (L : Letters) (chunks : List Chunk) (ev : Evidence) : Prop :=
  trim ev.quote ≠ [] → ∃ chunk ∈ chunks, ev.chunkId = some chunk.id ∧ Occurs L ev.quote chunk

/-- Evidence that names no chunk is of the one it was extracted from. -/
def within (chunk : Chunk) (ev : Evidence) : Evidence := { ev with chunkId := some (ev.chunkId.getD chunk.id) }

section Quotes
variable {L : Letters} {S : Serde} {chunks : List Chunk} {chunk : Chunk} {evidence evs : List Evidence}
  {ev ev' : Evidence} {needle itemText : Text} {findings : List ChunkFindings} {seg : TranscriptSegment}

theorem bestFrom_mem {words : List Text} {best : Option (ℕ × TranscriptSegment)} {segs : List TranscriptSegment}
    {n : ℕ} (h : bestFrom L words best segs = some (n, seg)) : best = some (n, seg) ∨ seg ∈ segs := by
  induction segs generalizing best with
  | nil => exact Or.inl h
  | cons seg' segs ih =>
    unfold bestFrom at h
    dsimp only at h
    split_ifs at h
    · exact (ih h).imp_right (List.mem_cons_of_mem _)
    · rcases ih h with heq | hmem
      · cases heq
        exact Or.inr List.mem_cons_self
      · exact Or.inr (List.mem_cons_of_mem _ hmem)
    · exact (ih h).imp_right (List.mem_cons_of_mem _)

/-- **The quote of the best segment** is that segment. -/
theorem supported_bestSegment (hc : chunk ∈ chunks) (h : bestSegment L itemText chunk = some ev) :
    Supported L chunks ev := by
  intro _
  unfold bestSegment at h
  dsimp only at h
  split_ifs at h
  obtain ⟨⟨n, seg⟩, hbest, rfl⟩ := Option.map_eq_some_iff.mp h
  have hseg : seg ∈ chunk.segments := (bestFrom_mem hbest).resolve_left (by simp)
  refine ⟨chunk, hc, rfl, [seg], (List.singleton_infix_iff seg _).mpr hseg, ?_⟩
  rw [List.map_singleton, List.intercalate_singleton]

theorem ground_ne_nil : ground L evidence itemText chunk ≠ [] := by
  unfold ground
  split_ifs with h
  · obtain ⟨e, he, -⟩ := List.any_eq_true.mp h
    exact fun hnil => List.ne_nil_of_mem he (List.map_eq_nil_iff.mp hnil)
  · split <;> simp

theorem chunkId_ground (h : ev ∈ ground L evidence itemText chunk) : ev.chunkId.isSome := by
  unfold ground at h
  split_ifs at h
  · obtain ⟨e, -, rfl⟩ := List.mem_map.mp h
    rfl
  · cases hbest : bestSegment L itemText chunk with
    | none =>
      rw [hbest] at h
      rw [List.mem_singleton.mp h]
      rfl
    | some best =>
      rw [hbest] at h
      rw [List.mem_singleton.mp h]
      unfold bestSegment at hbest
      dsimp only at hbest
      split_ifs at hbest
      obtain ⟨found, -, rfl⟩ := Option.map_eq_some_iff.mp hbest
      rfl

/-- **The quotes of a finding once it is grounded**: those that the model wrote, or the best segment. -/
theorem supported_ground (hc : chunk ∈ chunks) : (∀ ev ∈ ground L evidence itemText chunk, Supported L chunks ev) ↔
    ∀ ev ∈ evidence, Supported L chunks (within chunk ev) := by
  unfold ground
  split_ifs with h
  · simp only [List.forall_mem_map]
    exact Iff.rfl
  · have hblank : ∀ ev ∈ evidence, Supported L chunks (within chunk ev) := by
      intro ev hev hquote
      exact absurd (List.any_eq_true.mpr ⟨ev, hev, decide_eq_true hquote⟩) h
    refine iff_of_true ?_ hblank
    cases hbest : bestSegment L itemText chunk with
    | none =>
      simp only [List.mem_singleton, forall_eq]
      exact fun hquote => absurd rfl hquote
    | some best =>
      simp only [List.mem_singleton, forall_eq]
      exact supported_bestSegment hc hbest

/-- Whether a quote is supported is told by what `attach` takes two entries for the same by. -/
theorem supported_of_key (h : Supported L chunks ev') (hkey : evidenceKey ev' = evidenceKey ev)
    (hsome : ev.chunkId.isSome) (hsome' : ev'.chunkId.isSome) : Supported L chunks ev := by
  obtain ⟨hquote, hid⟩ := Prod.mk.inj hkey
  obtain ⟨id, hev⟩ := Option.isSome_iff_exists.mp hsome
  obtain ⟨id', hev'⟩ := Option.isSome_iff_exists.mp hsome'
  rw [hev, hev'] at hid
  obtain rfl : id' = id := hid
  intro hne
  rw [← hquote] at hne
  obtain ⟨c, hc, hname, hoccurs⟩ := h hne
  exact ⟨c, hc, by rw [hev, ← hev', hname], hquote ▸ hoccurs⟩

/-- Of each key that was not seen, an entry is left. -/
theorem key_mem_dedupe (seen : List (Text × Text)) (h : ev ∈ evs) :
    evidenceKey ev ∈ seen ∨ ∃ ev' ∈ dedupeEvidence seen evs, evidenceKey ev' = evidenceKey ev := by
  induction evs generalizing seen with
  | nil => exact absurd h List.not_mem_nil
  | cons e evs ih =>
    unfold dedupeEvidence
    split_ifs with hseen
    · rcases List.mem_cons.mp h with rfl | h
      · exact Or.inl hseen
      · exact ih _ h
    · rcases List.mem_cons.mp h with rfl | h
      · exact Or.inr ⟨ev, List.mem_cons_self, rfl⟩
      · rcases ih (evidenceKey e :: seen) h with hmem | ⟨ev', hev', hkey⟩
        · rcases List.mem_cons.mp hmem with heq | hmem
          · exact Or.inr ⟨e, List.mem_cons_self, heq.symm⟩
          · exact Or.inl hmem
        · exact Or.inr ⟨ev', List.mem_cons_of_mem _ hev', hkey⟩

/-- Entries left out of the evidence leave its quotes as they are. -/
theorem supported_dedupe (hsome : ∀ ev ∈ evs, ev.chunkId.isSome) :
    (∀ ev ∈ dedupeEvidence [] evs, Supported L chunks ev) ↔ ∀ ev ∈ evs, Supported L chunks ev := by
  constructor
  · intro h ev hev
    rcases key_mem_dedupe [] hev with hmem | ⟨ev', hev', hkey⟩
    · exact absurd hmem List.not_mem_nil
    · exact supported_of_key (h ev' hev') hkey (hsome ev hev) (hsome ev' (dedupeEvidence_subset _ _ hev'))
  · exact fun h ev hev => h ev (dedupeEvidence_subset _ _ hev)

end Quotes

/-! ### What is found for an item -/

/-- A chunk with the reply for it, and what is read from the reply. -/
def Reads (S : Serde) (c : Chunk × Text) (f : ChunkFindings) : Prop := S.findings (stripToJsonObject c.2) = .ok f

/-- The findings are those that are read from the replies, with their provenance. -/
def Extracted (L : Letters) (S : Serde) (cs : List (Chunk × Text)) (findings : List ChunkFindings) : Prop :=
  ∀ b, b ∈ findings ↔ ∃ c ∈ cs, ∃ f, Reads S c f ∧ b = stampProvenance L c.1 f

/-- No finding of the kind is similar to the text. -/
def NoneSimilar (L : Letters) (S : Serde) (cs : List (Chunk × Text)) (k : Kind) (text : Text) : Prop :=
  ∀ c ∈ cs, ∀ f, Reads S c f → ∀ y ∈ findingsOf f k, similar L text y.1 = false

/-- **The quotes that the extraction model wrote** on findings of the kind that are similar to the text are in the
chunks they name. -/
def SimilarSupported (L : Letters) (S : Serde) (chunks : List Chunk) (cs : List (Chunk × Text)) (k : Kind)
    (text : Text) : Prop :=
  ∀ c ∈ cs, ∀ f, Reads S c f → ∀ y ∈ findingsOf f k, similar L text y.1 = true →
    ∀ ev ∈ y.2, Supported L chunks (within c.1 ev)

section Found
variable {L : Letters} {S : Serde} {chunks : List Chunk} {cs : List (Chunk × Text)} {findings : List ChunkFindings}
  {k : Kind} {text : Text} {ev : Evidence} {own : List Evidence}

theorem mem_of_mapM_ok {ε α β : Type} {g : α → Except ε β} {l : List α} {bs : List β} (h : l.mapM g = .ok bs) {b : β} :
    b ∈ bs ↔ ∃ a ∈ l, g a = .ok b := by
  induction l generalizing bs with
  | nil =>
    cases h
    simp
  | cons a l ih =>
    rw [List.mapM_cons] at h
    cases ha : g a with
    | error e =>
      rw [ha] at h
      cases h
    | ok b' =>
      rw [ha] at h
      cases hl : l.mapM g with
      | error e =>
        rw [hl] at h
        cases h
      | ok bs' =>
        rw [hl] at h
        cases h
        simp [ih hl, ha, eq_comm]

theorem parseFindings_eq_ok {c : Chunk × Text} {b : ChunkFindings} : parseFindings L S c.2 c.1 = .ok b ↔
    ∃ f, Reads S c f ∧ b = stampProvenance L c.1 f := by
  unfold parseFindings Reads
  cases S.findings (stripToJsonObject c.2) with
  | error e => simp [Except.mapError, Except.map]
  | ok f => simp [Except.mapError, Except.map, eq_comm]

theorem mem_matchedEvidence {sources : List (Text × List Evidence)} : ev ∈ matchedEvidence L text sources ↔
    ∃ x ∈ sources, similar L text x.1 = true ∧ ev ∈ x.2 := by
  simp only [matchedEvidence, List.mem_flatMap, List.mem_ite_nil_right]

/-- What is found for an item is on the findings that are similar to it. -/
theorem mem_found (h : Extracted L S cs findings) :
    ev ∈ matchedEvidence L text (findings.flatMap (findingsOf · k)) ↔ ∃ c ∈ cs, ∃ f, Reads S c f ∧
      ∃ y ∈ findingsOf f k, similar L text y.1 = true ∧ ev ∈ ground L y.2 y.1 c.1 := by
  rw [mem_matchedEvidence]
  constructor
  · rintro ⟨x, hx, hsimilar, hev⟩
    obtain ⟨b, hb, hx⟩ := List.mem_flatMap.mp hx
    obtain ⟨c, hc, f, hf, rfl⟩ := (h b).mp hb
    rw [findingsOf_stamp] at hx
    obtain ⟨y, hy, rfl⟩ := List.mem_map.mp hx
    exact ⟨c, hc, f, hf, y, hy, hsimilar, hev⟩
  · rintro ⟨c, hc, f, hf, y, hy, hsimilar, hev⟩
    refine ⟨(y.1, ground L y.2 y.1 c.1), List.mem_flatMap.mpr ⟨_, (h _).mpr ⟨c, hc, f, hf, rfl⟩, ?_⟩, hsimilar, hev⟩
    rw [findingsOf_stamp]
    exact List.mem_map_of_mem hy

/-- Nothing is found exactly if no finding is similar: each has evidence once it is grounded. -/
theorem found_eq_nil_iff (h : Extracted L S cs findings) :
    matchedEvidence L text (findings.flatMap (findingsOf · k)) = [] ↔ NoneSimilar L S cs k text := by
  rw [List.eq_nil_iff_forall_not_mem]
  constructor
  · intro hnone c hc f hf y hy
    by_contra hsimilar
    have hne : ground L y.2 y.1 c.1 ≠ [] := ground_ne_nil
    obtain ⟨ev, hev⟩ := List.exists_mem_of_ne_nil _ hne
    exact hnone ev ((mem_found h).mpr ⟨c, hc, f, hf, y, hy, by simpa using hsimilar, hev⟩)
  · intro hnone ev hev
    obtain ⟨c, hc, f, hf, y, hy, hsimilar, -⟩ := (mem_found h).mp hev
    rw [hnone c hc f hf y hy] at hsimilar
    cases hsimilar

/-- **The quotes that are found for an item.** -/
theorem supported_found (h : Extracted L S cs findings) (hcs : ∀ c ∈ cs, c.1 ∈ chunks) :
    (∀ ev ∈ matchedEvidence L text (findings.flatMap (findingsOf · k)), Supported L chunks ev) ↔
      SimilarSupported L S chunks cs k text := by
  constructor
  · intro hall c hc f hf y hy hsimilar
    have hground : ∀ ev ∈ ground L y.2 y.1 c.1, Supported L chunks ev :=
      fun ev hev => hall ev ((mem_found h).mpr ⟨c, hc, f, hf, y, hy, hsimilar, hev⟩)
    exact (supported_ground (hcs c hc)).mp hground
  · intro hsupported ev hev
    obtain ⟨c, hc, f, hf, y, hy, hsimilar, hev⟩ := (mem_found h).mp hev
    exact (supported_ground (hcs c hc)).mpr (hsupported c hc f hf y hy hsimilar) ev hev

/-- The quotes of an item after its evidence was attached again. -/
theorem supported_attach (h : Extracted L S cs findings) (hcs : ∀ c ∈ cs, c.1 ∈ chunks) :
    (∀ ev ∈ attach own (matchedEvidence L text (findings.flatMap (findingsOf · k))), Supported L chunks ev) ↔
      SimilarSupported L S chunks cs k text ∧
        (NoneSimilar L S cs k text → ∀ ev ∈ own, Supported L chunks ev) := by
  rw [← supported_found h hcs, ← found_eq_nil_iff h]
  have hsome : ∀ ev ∈ matchedEvidence L text (findings.flatMap (findingsOf · k)), ev.chunkId.isSome := by
    intro ev hev
    obtain ⟨c, -, f, -, y, -, -, hev⟩ := (mem_found h).mp hev
    exact chunkId_ground hev
  unfold attach
  split_ifs with hnil
  · rw [hnil]
    simp
  · rw [supported_dedupe hsome]
    exact ⟨fun hall => ⟨hall, fun hfound => absurd hfound hnil⟩, And.left⟩

end Found

/-! ### No quotes made up -/

/-- **The quotes that the models wrote are in the transcript**, as far as they are kept: those of the extraction
on findings that are similar to an item, and those of the synthesis on items that no finding is similar to. -/
def Faithful (L : Letters) (S : Serde) (p : PreparedTranscript) (replies : List Text) (reply : Text) : Prop :=
  ∀ ir, S.ir (stripToJsonObject reply) = .ok ir → ∀ k, ∀ x ∈ itemsOfKind ir k,
    SimilarSupported L S p.chunks (p.chunks.zip replies) k x.1 ∧
      (NoneSimilar L S (p.chunks.zip replies) k x.1 → ∀ ev ∈ x.2, Supported L p.chunks ev)

/-- **Every quote of the representation is in the chunk it names exactly if the models wrote none that is not.** -/
theorem quotes_supported_iff (L : Letters) (S : Serde) (t : Transcript) (cfg : ChunkingConfig) (replies : List Text)
    (reply : Text) (ir : MeetingIr) (h : analyzed L S (prepare t cfg) replies reply = .ok ir) :
    (∀ ev ∈ evidenceOf ir, Supported L (prepare t cfg).chunks ev) ↔ Faithful L S (prepare t cfg) replies reply := by
  generalize prepare t cfg = p at h ⊢
  unfold analyzed at h
  cases hfindings : (p.chunks.zip replies).mapM fun (c : Chunk × Text) => parseFindings L S c.2 c.1 with
  | error e =>
    rw [hfindings] at h
    cases h
  | ok findings =>
    rw [hfindings] at h
    cases hread : S.ir (stripToJsonObject reply) with
    | error e =>
      rw [show parseIr S reply = .error (.parse e) by rw [parseIr, hread]; rfl] at h
      cases h
    | ok read =>
      rw [show parseIr S reply = .ok read by rw [parseIr, hread]; rfl] at h
      obtain rfl : reconcile L read (.fromChunks findings) p.normalized = ir := Except.ok.inj h
      have hextracted : Extracted L S (p.chunks.zip replies) findings := by
        intro b
        rw [mem_of_mapM_ok hfindings]
        simp only [parseFindings_eq_ok]
      have hcs : ∀ c ∈ p.chunks.zip replies, c.1 ∈ p.chunks := fun c hc => (List.of_mem_zip hc).1
      unfold Faithful
      rw [evidenceOf_reconcile, hread]
      simp only [Except.ok.injEq, forall_eq', ← supported_attach hextracted hcs, List.mem_flatMap]
      constructor
      · intro hall k x hx ev hev
        exact hall ev ⟨_, mem_items.mpr ⟨k, x, hx, rfl⟩, hev⟩
      · rintro hall ev ⟨i, hi, hev⟩
        obtain ⟨k, x, hx, rfl⟩ := mem_items.mp hi
        exact hall k x hx ev hev

/-! ### A decision without a quote, and one with a quote nobody said -/

/-- The letters of ASCII. -/
def ascii : Letters := ⟨Char.isAlphanum, List.map Char.toLower, rfl⟩

/-- A meeting of one segment. -/
def shipping : Transcript := { segments := [{ start := .num 0, «end» := .num 1, text := "ship it".toList }] }

/-- The reply of an extraction that found a decision. -/
def unquoted : Text := "\x7b\"decisions\":[\x7b\"decision\":\"ship\"\x7d]\x7d".toList

/-- The same with a quote. -/
def quoted : Text :=
  "\x7b\"decisions\":[\x7b\"decision\":\"ship\",\"evidence\":[\x7b\"quote\":\"never\"\x7d]\x7d]\x7d".toList

/-- The reply of the synthesis. -/
def consolidated : Text := "\x7b\"summary\":\"s\",\"decisions\":[\x7b\"decision\":\"ship\"\x7d]\x7d".toList

/-- What is read from these replies. -/
def shippingSerde : Serde where
  findings s :=
    if s = unquoted then .ok { decisions := [{ decision := "ship".toList }] }
    else if s = quoted then
      .ok { decisions := [{ decision := "ship".toList, evidence := [{ quote := "never".toList }] }] }
    else .error "expected value".toList
  ir s :=
    if s = consolidated then .ok { summary := "s".toList, decisions := [{ decision := "ship".toList }] }
    else .error "expected value".toList

/-- The representation of the one decision, with a quote. -/
def shippingIr (quote : Text) : MeetingIr where
  summary := "s".toList
  decisions := [{
    decision := "ship".toList
    evidence := [{
      quote := quote, start := some (.num 0), «end» := some (.num 1), chunkId := some "chunk-0".toList }] }]

/-- A decision without a quote is grounded in what was said. -/
theorem unquoted_supported : (evidenceOf (shippingIr "ship it".toList)).length = 1 ∧
    ∀ ev ∈ evidenceOf (shippingIr "ship it".toList), Supported ascii (prepare shipping {}).chunks ev := by
  have hrun : analyzed ascii shippingSerde (prepare shipping {}) [unquoted] consolidated =
      .ok (shippingIr "ship it".toList) := by rfl
  have hfindings (k : Kind) : ∀ y ∈ findingsOf { decisions := [{ decision := "ship".toList }] } k, y.2 = [] := by
    cases k <;> simp [findingsOf, pool]
  have hitems (k : Kind) : ∀ x ∈ itemsOfKind { decisions := [{ decision := "ship".toList }] } k, x.2 = [] := by
    cases k <;> simp [itemsOfKind, pool]
  refine ⟨rfl, (quotes_supported_iff ascii shippingSerde shipping {} [unquoted] consolidated _ hrun).mpr ?_⟩
  intro ir hir k x hx
  obtain rfl : { summary := "s".toList, decisions := [{ decision := "ship".toList }] } = ir := Except.ok.inj hir
  refine ⟨fun c hc f hf y hy _ ev hev => ?_, fun _ ev hev => ?_⟩
  · have hreply : c.2 = unquoted := List.mem_singleton.mp (List.of_mem_zip hc).2
    unfold Reads at hf
    rw [hreply] at hf
    obtain rfl : { decisions := [{ decision := "ship".toList }] } = f := Except.ok.inj hf
    rw [hfindings k y hy] at hev
    exact absurd hev List.not_mem_nil
  · have hnone : x.2 = [] := hitems k x hx
    rw [hnone] at hev
    exact absurd hev List.not_mem_nil

/-- **A quote that the model wrote is kept, whoever said it.** -/
theorem quoted_kept : ¬ ∀ (L : Letters) (S : Serde) (t : Transcript) (cfg : ChunkingConfig) (replies : List Text)
    (reply : Text) (ir : MeetingIr), replies.length = (prepare t cfg).chunks.length →
    analyzed L S (prepare t cfg) replies reply = .ok ir →
      ∀ ev ∈ evidenceOf ir, Supported L (prepare t cfg).chunks ev := by
  intro h
  have hrun : analyzed ascii shippingSerde (prepare shipping {}) [quoted] consolidated =
      .ok (shippingIr "never".toList) := by rfl
  have hsupported := h ascii shippingSerde shipping {} [quoted] consolidated _ rfl hrun _ List.mem_cons_self
  obtain ⟨chunk, hchunk, -, segs, hsegs, hquote⟩ := hsupported (by decide)
  have hall : ∀ c ∈ (prepare shipping {}).chunks,
      c.segments = [{ start := .num 0, «end» := .num 1, text := "ship it".toList }] := by decide +kernel
  rw [hall chunk hchunk] at hsegs
  rcases (List.infix_singleton_iff _ _).mp hsegs with rfl | rfl
  · exact absurd hquote (by decide +kernel)
  · exact absurd hquote (by decide +kernel)

end Notely.Engine.Extraction
