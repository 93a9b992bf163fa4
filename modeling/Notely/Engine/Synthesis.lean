import Notely.Engine.Analysis
import Notely.Engine.SearchIndex

/-! # Reconciling a synthesized representation

`ai/findings.rs` and the deterministic half of `ai/synthesis.rs`. The model's consolidation of the findings
is reconciled with them: evidence is attached again from the findings similar to an item, owners and
deadlines nobody stated are dropped, speakers are added to the participants.

* `mem_attach`: what an item's evidence is after its evidence was attached again.
* `authoritative_iff`: after `reconcile` only evidence of the findings is left exactly if every item that no
  finding with evidence is similar to brought none of its own. -/

namespace Notely.Engine.Synthesis

open Notely.Lib.Strings Notely.Engine.Domain Notely.Engine.Analysis
open Notely.Engine.SearchIndex (Letters)
open Notely.Engine.Chunker (trim)

/-! ### Findings -/

/-- `MergedFindings`. -/
structure MergedFindings where
  topics : List Topic := []
  decisions : List Decision := []
  actionItems : List ActionItem := []
  openQuestions : List OpenQuestion := []
  risks : List Risk := []
  deriving DecidableEq

namespace MergedFindings

/-- `MergedFindings::from_chunks`. -/
def fromChunks (findings : List ChunkFindings) : MergedFindings where
  topics := findings.flatMap ChunkFindings.topics
  decisions := findings.flatMap ChunkFindings.decisions
  actionItems := findings.flatMap ChunkFindings.actionItems
  openQuestions := findings.flatMap ChunkFindings.openQuestions
  risks := findings.flatMap ChunkFindings.risks

/-- `all_evidence`. -/
def allEvidence (m : MergedFindings) : List Evidence :=
  m.decisions.flatMap Decision.evidence ++ m.actionItems.flatMap ActionItem.evidence ++
    m.topics.flatMap Topic.evidence ++ m.openQuestions.flatMap OpenQuestion.evidence ++
    m.risks.flatMap Risk.evidence

end MergedFindings

/-- `speaker_ids`: in the order they first speak. -/
def speakerIds (t : Transcript) : List Text :=
  t.segments.foldl (fun seen seg =>
    match seg.speakerId with
    | some id => if seen.contains id then seen else seen ++ [id]
    | none => seen) []

/-! ### Similar texts -/

/-- `normalize`. -/
def normalize (L : Letters) (s : Text) : Text :=
  let spaced := (L.toLowercase s).map fun c => if L.isAlphanumeric c then c else ' '
  " ".toList.intercalate ((spaced.splitOnP whiteSpace).filter (· ≠ []))

/-- `similar`. The quotient of two counts is at least 0.34, as floating point numbers, exactly if it is. -/
def similar (L : Letters) (a b : Text) : Bool :=
  let na := normalize L a
  let nb := normalize L b
  if na = [] ∨ nb = [] then false
  else if nb <:+: na ∨ na <:+: nb then true
  else
    let sa := (na.splitOn ' ').dedup
    let sb := (nb.splitOn ' ').dedup
    let inter := (sa.filter sb.contains).length
    let union := max (sa ++ sb).dedup.length 1
    decide (34 * union ≤ 100 * inter)

/-! ### Evidence -/

/-- `matched_evidence`. -/
def matchedEvidence (L : Letters) (needle : Text) (sources : List (Text × List Evidence)) : List Evidence :=
  sources.flatMap fun (text, evidence) => if similar L needle text then evidence else []

/-- What `attach` takes two entries for the same by. -/
def evidenceKey (ev : Evidence) : Text × Text := (ev.quote, ev.chunkId.getD [])

/-- The first entry of each key that was not seen. -/
def dedupeEvidence : List (Text × Text) → List Evidence → List Evidence
  | _, [] => []
  | seen, ev :: evs =>
    if evidenceKey ev ∈ seen then dedupeEvidence seen evs
    else ev :: dedupeEvidence (evidenceKey ev :: seen) evs

/-- `attach`: what was found takes the place of what is there, if anything was found. -/
def attach (target found : List Evidence) : List Evidence :=
  if found = [] then target else dedupeEvidence [] found

/-! ### Owners and deadlines -/

/-- `guard_field`. -/
def guardField (L : Letters) (value : Option Text) (sources : List ActionItem)
    (fieldOf : ActionItem → Option Text) (transcriptLower : Text) : Option Text :=
  value.bind fun value =>
    let v := trim value
    if v = [] then none
    else
      let fromSource := sources.any fun s =>
        (fieldOf s).any fun f => (trim f).map Char.toLower = v.map Char.toLower
      if fromSource ∨ L.toLowercase v <:+: transcriptLower then some value else none

/-! ### Reconciling -/

/-- The speakers that are no participants yet become some. -/
def backfill (participants : List Participant) (speakers : List Text) : List Participant :=
  speakers.foldl (fun ps speaker => if ps.any (·.id = speaker) then ps else ps ++ [{ id := speaker }])
    participants

/-- The findings of one kind, by their text. -/
def pool {α : Type} (text : α → Text) (evidence : α → List Evidence) (items : List α) :
    List (Text × List Evidence) :=
  items.map fun x => (text x, evidence x)

/-- `reconcile`, for an action item. -/
def reconcileAction (L : Letters) (merged : MergedFindings) (transcriptLower : Text) (a : ActionItem) :
    ActionItem :=
  let sources := merged.actionItems.filter fun s => similar L a.description s.description
  { a with
    evidence := attach a.evidence (sources.flatMap ActionItem.evidence)
    owner := guardField L (a.owner.or (sources.findSome? ActionItem.owner)) sources ActionItem.owner
      transcriptLower
    deadline := guardField L (a.deadline.or (sources.findSome? ActionItem.deadline)) sources
      ActionItem.deadline transcriptLower }

/-- `reconcile`. -/
def reconcile (L : Letters) (ir : MeetingIr) (merged : MergedFindings) (transcript : Transcript) :
    MeetingIr :=
  let transcriptLower := " ".toList.intercalate (transcript.segments.map fun s => L.toLowercase s.text)
  { summary := trim ir.summary
    participants := backfill ir.participants (speakerIds transcript)
    decisions := ir.decisions.map fun d => { d with
      evidence := attach d.evidence
        (matchedEvidence L d.decision (pool Decision.decision Decision.evidence merged.decisions)) }
    topics := ir.topics.map fun t => { t with
      evidence := attach t.evidence
        (matchedEvidence L t.title (pool Topic.title Topic.evidence merged.topics)) }
    openQuestions := ir.openQuestions.map fun q => { q with
      evidence := attach q.evidence
        (matchedEvidence L q.question
          (pool OpenQuestion.question OpenQuestion.evidence merged.openQuestions)) }
    risks := ir.risks.map fun r => { r with
      evidence := attach r.evidence
        (matchedEvidence L r.description (pool Risk.description Risk.evidence merged.risks)) }
    actionItems := ir.actionItems.map (reconcileAction L merged transcriptLower) }

/-! ### What evidence is left -/

theorem dedupeEvidence_subset (seen : List (Text × Text)) (evs : List Evidence) :
    dedupeEvidence seen evs ⊆ evs := by
  induction evs generalizing seen with
  | nil => exact List.Subset.refl _
  | cons ev evs ih =>
    unfold dedupeEvidence
    split_ifs
    · exact fun e he => List.mem_cons_of_mem ev (ih seen he)
    · exact List.cons_subset_cons ev (ih _)

/-- **The evidence of an item is what was found, or what it brought if nothing was found.** -/
theorem mem_attach {target found : List Evidence} {ev : Evidence} (h : ev ∈ attach target found) :
    ev ∈ found ∨ (found = [] ∧ ev ∈ target) := by
  unfold attach at h
  split_ifs at h with hf
  · exact Or.inr ⟨hf, h⟩
  · exact Or.inl (dedupeEvidence_subset _ _ h)

/-- An item of a representation: its text, its evidence, and the findings of its kind. -/
structure Item where
  text : Text
  evidence : List Evidence
  pool : List (Text × List Evidence)

/-- The items of one kind. -/
def itemsOf {α : Type} (text : α → Text) (evidence : α → List Evidence) (findings items : List α) :
    List Item :=
  items.map fun x => ⟨text x, evidence x, pool text evidence findings⟩

/-- The items of a representation. -/
def items (ir : MeetingIr) (merged : MergedFindings) : List Item :=
  itemsOf Decision.decision Decision.evidence merged.decisions ir.decisions ++
    itemsOf ActionItem.description ActionItem.evidence merged.actionItems ir.actionItems ++
    itemsOf Topic.title Topic.evidence merged.topics ir.topics ++
    itemsOf OpenQuestion.question OpenQuestion.evidence merged.openQuestions ir.openQuestions ++
    itemsOf Risk.description Risk.evidence merged.risks ir.risks

/-- Every entry of evidence of every item. -/
def evidenceOf (ir : MeetingIr) : List Evidence :=
  ir.decisions.flatMap Decision.evidence ++ ir.actionItems.flatMap ActionItem.evidence ++
    ir.topics.flatMap Topic.evidence ++ ir.openQuestions.flatMap OpenQuestion.evidence ++
    ir.risks.flatMap Risk.evidence

/-- The evidence found for an item. -/
def Item.found (L : Letters) (i : Item) : List Evidence := matchedEvidence L i.text i.pool

section Reconcile
variable {L : Letters} {ir : MeetingIr} {merged : MergedFindings} {t : Transcript}

theorem matchedEvidence_cons (needle text : Text) (evidence : List Evidence)
    (sources : List (Text × List Evidence)) : matchedEvidence L needle ((text, evidence) :: sources) =
      (if similar L needle text then evidence else []) ++ matchedEvidence L needle sources :=
  List.flatMap_cons

theorem flatMap_filter_similar (needle : Text) (sources : List ActionItem) :
    (sources.filter fun s => similar L needle s.description).flatMap ActionItem.evidence =
      matchedEvidence L needle (pool ActionItem.description ActionItem.evidence sources) := by
  induction sources with
  | nil => rfl
  | cons s sources ih =>
    unfold pool at ih ⊢
    rw [List.filter_cons, List.map_cons, matchedEvidence_cons]
    split_ifs
    · rw [List.flatMap_cons, ih]
    · rw [ih, List.nil_append]

/-- The evidence of a reconciled representation, item by item. -/
theorem evidenceOf_reconcile : evidenceOf (reconcile L ir merged t) =
    (items ir merged).flatMap fun i => attach i.evidence (i.found L) := by
  unfold evidenceOf reconcile items itemsOf Item.found
  simp only [List.flatMap_append, List.flatMap_map, reconcileAction, flatMap_filter_similar]

/-- What is found for an item comes from the findings of its kind. -/
theorem found_subset {i : Item} (hi : i ∈ items ir merged) : i.found L ⊆ merged.allEvidence := by
  have hpool : ∀ {α : Type} (text : α → Text) (evidence : α → List Evidence) (fs xs : List α),
      i ∈ itemsOf text evidence fs xs → i.found L ⊆ fs.flatMap evidence := by
    intro α text evidence fs xs hi ev hev
    obtain ⟨x, -, rfl⟩ := List.mem_map.mp hi
    obtain ⟨s, hs, hev⟩ := List.mem_flatMap.mp hev
    obtain ⟨f, hf, rfl⟩ := List.mem_map.mp hs
    simp only [List.mem_ite_nil_right] at hev
    exact List.mem_flatMap.mpr ⟨f, hf, hev.2⟩
  intro ev hev
  simp only [MergedFindings.allEvidence, List.mem_append]
  simp only [items, List.mem_append] at hi
  rcases hi with (((hi | hi) | hi) | hi) | hi
  · exact Or.inl (Or.inl (Or.inl (Or.inl (hpool _ _ _ _ hi hev))))
  · exact Or.inl (Or.inl (Or.inl (Or.inr (hpool _ _ _ _ hi hev))))
  · exact Or.inl (Or.inl (Or.inr (hpool _ _ _ _ hi hev)))
  · exact Or.inl (Or.inr (hpool _ _ _ _ hi hev))
  · exact Or.inr (hpool _ _ _ _ hi hev)

end Reconcile

/-- **An item no finding with evidence is similar to brought no evidence but that of the findings.** -/
def BroughtNone (L : Letters) (ir : MeetingIr) (merged : MergedFindings) : Prop :=
  ∀ i ∈ items ir merged, i.found L = [] → ∀ ev ∈ i.evidence, ev ∈ merged.allEvidence

/-- **After `reconcile` only evidence of the findings is left exactly if no unmatched item brought its
own.** -/
theorem authoritative_iff (L : Letters) (ir : MeetingIr) (findings : List ChunkFindings) (t : Transcript) :
    (∀ ev ∈ evidenceOf (reconcile L ir (.fromChunks findings) t),
      ev ∈ (MergedFindings.fromChunks findings).allEvidence) ↔
        BroughtNone L ir (.fromChunks findings) := by
  rw [evidenceOf_reconcile]
  constructor
  · intro h i hi hnone ev hev
    refine h ev (List.mem_flatMap.mpr ⟨i, hi, ?_⟩)
    rwa [attach, if_pos hnone]
  · intro h ev hev
    obtain ⟨i, hi, hev⟩ := List.mem_flatMap.mp hev
    rcases mem_attach hev with hf | ⟨hnone, hev⟩
    · exact found_subset hi hf
    · exact h i hi hnone ev hev

/-- A decision of the model's own, with a quote nobody said. -/
def invented : MeetingIr where
  summary := "s".toList
  decisions := [{ decision := "d".toList, evidence := [{ quote := "q".toList }] }]

/-- **Invented evidence survives where nothing was found.** -/
theorem invented_evidence_kept : ¬ ∀ (L : Letters) (ir : MeetingIr) (findings : List ChunkFindings)
    (t : Transcript), ∀ ev ∈ evidenceOf (reconcile L ir (.fromChunks findings) t),
      ev ∈ (MergedFindings.fromChunks findings).allEvidence := by
  intro h
  exact absurd (h ⟨fun _ => true, id, rfl⟩ invented [] {} { quote := "q".toList } List.mem_cons_self)
    List.not_mem_nil

end Notely.Engine.Synthesis
