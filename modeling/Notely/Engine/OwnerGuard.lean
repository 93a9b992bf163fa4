import Notely.Engine.SimilarTexts

/-! # Owners, deadlines and participants after reconciling

What `reconcile` of `ai/synthesis.rs` leaves of the fields that the model may not make up. The owner (the deadline)
of an action item is the model's, or that of a finding similar to the item; it is kept if a similar finding states
it, or if the transcript, in lower case and joined to one text, contains it anywhere.

* `guardField_eq_some_iff`: which values are kept.
* `never_invented_iff`: when every value kept was stated, or spoken as words of one segment.
* `recovered_iff`: when a value that a similar finding states is recovered.
* `participants_iff`: when the participants are the speakers. -/

namespace Notely.Engine.OwnerGuard

open Notely.Lib.Strings Notely.Engine.Domain Notely.Engine.Analysis Notely.Engine.Synthesis
open Notely.Engine.Extraction (ascii)
open Notely.Engine.SearchIndex (Letters)
open Notely.Engine.Chunker (trim)

/-- The fields that are guarded. -/
inductive Field
  | owner
  | deadline

/-- The field of an action item. -/
def Field.of : Field → ActionItem → Option Text
  | .owner => ActionItem.owner
  | .deadline => ActionItem.deadline

/-- The transcript in lower case, as one text. -/
def heard (L : Letters) (t : Transcript) : Text :=
  " ".toList.intercalate (t.segments.map fun s => L.toLowercase s.text)

/-- The findings similar to an action item. -/
def similarTo (L : Letters) (m : MergedFindings) (a : ActionItem) : List ActionItem :=
  m.actionItems.filter fun s => similar L a.description s.description

/-- Equal but for outer blanks and the case of letters of ASCII. -/
def EqIgnoreAsciiCase (f v : Text) : Prop := (trim f).map Char.toLower = (trim v).map Char.toLower

section Guard
variable {L : Letters} {ir : MeetingIr} {m : MergedFindings} {t : Transcript} {a b : ActionItem} {lower v : Text}
  {sources : List ActionItem} {field : Field} {value : Option Text}

/-- **The values that are kept**: those a source states, and those the transcript contains. -/
theorem guardField_eq_some_iff {fieldOf : ActionItem → Option Text} :
    guardField L value sources fieldOf lower = some v ↔ value = some v ∧ trim v ≠ [] ∧
      ((∃ s ∈ sources, ∃ f ∈ fieldOf s, EqIgnoreAsciiCase f v) ∨ L.toLowercase (trim v) <:+: lower) := by
  have hsource (u : Text) : (sources.any fun s => (fieldOf s).any fun f =>
      (trim f).map Char.toLower = (trim u).map Char.toLower) = true ↔
        ∃ s ∈ sources, ∃ f ∈ fieldOf s, EqIgnoreAsciiCase f u := by
    simp [List.any_eq_true, Option.any_eq_true, EqIgnoreAsciiCase]
  unfold guardField
  rw [Option.bind_eq_some_iff]
  constructor
  · rintro ⟨u, rfl, hkept⟩
    dsimp only at hkept
    split_ifs at hkept with hblank hsupported
    obtain rfl := Option.some.inj hkept
    exact ⟨rfl, hblank, hsupported.imp_left (hsource u).mp⟩
  · rintro ⟨rfl, hblank, hsupported⟩
    refine ⟨v, rfl, ?_⟩
    dsimp only
    rw [if_neg hblank, if_pos (hsupported.imp_left (hsource v).mpr)]

/-- The field of an item once it is reconciled. -/
theorem of_reconcileAction : field.of (reconcileAction L m lower a) =
    guardField L ((field.of a).or ((similarTo L m a).findSome? field.of)) (similarTo L m a) field.of lower := by
  cases field <;> rfl

theorem actionItems_reconcile :
    (reconcile L ir m t).actionItems = ir.actionItems.map (reconcileAction L m (heard L t)) := rfl

end Guard

/-! ### Values nobody stated -/

/-- Equal but for outer blanks and case. -/
def SameValue (L : Letters) (f v : Text) : Prop :=
  EqIgnoreAsciiCase f v ∨ L.toLowercase (trim f) = L.toLowercase (trim v)

/-- A finding similar to the item states the value. -/
def StatedBy (L : Letters) (m : MergedFindings) (field : Field) (a : ActionItem) (v : Text) : Prop :=
  ∃ s ∈ similarTo L m a, ∃ f ∈ field.of s, SameValue L f v

/-- No word goes on from the end of `x` into `y`. -/
def Boundary (L : Letters) (x y : Text) : Prop :=
  ∀ c ∈ x.getLast?, ∀ d ∈ y.head?, ¬ (L.isAlphanumeric c = true ∧ L.isAlphanumeric d = true)

/-- The value occurs in the text, up to case, as whole words. -/
def OccursWhole (L : Letters) (v text : Text) : Prop :=
  ∃ before after, L.toLowercase text = before ++ L.toLowercase (trim v) ++ after ∧
    Boundary L before (L.toLowercase (trim v)) ∧ Boundary L (L.toLowercase (trim v)) after

instance (L : Letters) (x y : Text) : Decidable (Boundary L x y) :=
  have (c : Char) : Decidable (∀ d ∈ y.head?, ¬ (L.isAlphanumeric c = true ∧ L.isAlphanumeric d = true)) :=
    Option.decidableForallMem y.head?
  Option.decidableForallMem x.getLast?

/-- A place where the value occurs can be looked for. -/
theorem occursWhole_iff {L : Letters} {v text : Text} : OccursWhole L v text ↔
    ∃ i < (L.toLowercase text).length + 1, L.toLowercase (trim v) <+: (L.toLowercase text).drop i ∧
      Boundary L ((L.toLowercase text).take i) (L.toLowercase (trim v)) ∧
        Boundary L (L.toLowercase (trim v)) ((L.toLowercase text).drop (i + (L.toLowercase (trim v)).length)) := by
  constructor
  · rintro ⟨before, after, heq, hbefore, hafter⟩
    have hdrop : (L.toLowercase text).drop (before.length + (L.toLowercase (trim v)).length) = after := by
      rw [heq, ← List.length_append, List.drop_left]
    have htake : (L.toLowercase text).take before.length = before := by
      rw [heq, List.append_assoc, List.take_left]
    refine ⟨before.length, ?_, ⟨after, ?_⟩, htake.symm ▸ hbefore, hdrop.symm ▸ hafter⟩
    · rw [heq, List.length_append, List.length_append]
      omega
    · rw [heq, List.append_assoc, List.drop_left]
  · rintro ⟨i, -, ⟨after, hprefix⟩, hbefore, hafter⟩
    have hdrop : (L.toLowercase text).drop (i + (L.toLowercase (trim v)).length) = after := by
      rw [← List.drop_drop, ← hprefix, List.drop_left]
    refine ⟨_, after, ?_, hbefore, hdrop ▸ hafter⟩
    rw [List.append_assoc, hprefix, List.take_append_drop]

instance (L : Letters) (v text : Text) : Decidable (OccursWhole L v text) := decidable_of_iff _ occursWhole_iff.symm

/-- Somebody spoke the value, as whole words of one segment. -/
def Spoken (L : Letters) (t : Transcript) (v : Text) : Prop := ∃ seg ∈ t.segments, OccursWhole L v seg.text

/-- **The value of a field was not made up.** -/
def NotInvented (L : Letters) (m : MergedFindings) (t : Transcript) (field : Field) (a : ActionItem) : Prop :=
  ∀ v ∈ field.of a, StatedBy L m field a v ∨ Spoken L t v

/-- **The value of the model is in the transcript by accident**: no similar finding states it, and its letters are
there only inside of longer words, or from one segment into the next. -/
def ByAccident (L : Letters) (m : MergedFindings) (t : Transcript) (field : Field) (a : ActionItem) : Prop :=
  ∃ v ∈ field.of a, trim v ≠ [] ∧ ¬ StatedBy L m field a v ∧ L.toLowercase (trim v) <:+: heard L t ∧ ¬ Spoken L t v

section Invented
variable {L : Letters} {m : MergedFindings} {t : Transcript} {a s : ActionItem} {v : Text} {field : Field}

theorem statedBy_of_ascii (h : ∃ s ∈ similarTo L m a, ∃ f ∈ field.of s, EqIgnoreAsciiCase f v) :
    StatedBy L m field a v := by
  obtain ⟨s, hs, f, hf, hsame⟩ := h
  exact ⟨s, hs, f, hf, Or.inl hsame⟩

/-- What a similar finding has is stated by it. -/
theorem statedBy_of_findSome (h : (similarTo L m a).findSome? field.of = some v) : StatedBy L m field a v := by
  obtain ⟨s, hs, hv⟩ := List.exists_of_findSome?_eq_some h
  exact ⟨s, hs, v, hv, Or.inl rfl⟩

theorem notInvented_iff :
    NotInvented L m t field (reconcileAction L m (heard L t) a) ↔ ¬ ByAccident L m t field a := by
  constructor
  · rintro h ⟨v, hv, hblank, hstated, hcontained, hspoken⟩
    have hkept : field.of (reconcileAction L m (heard L t) a) = some v := by
      rw [of_reconcileAction, guardField_eq_some_iff, Option.mem_def.mp hv]
      exact ⟨rfl, hblank, Or.inr hcontained⟩
    exact (h v hkept).elim hstated hspoken
  · intro h v hv
    rw [Option.mem_def, of_reconcileAction, guardField_eq_some_iff] at hv
    obtain ⟨hvalue, hblank, hsupported⟩ := hv
    by_contra hnone
    obtain ⟨hstated, hspoken⟩ := not_or.mp hnone
    have hcontained := hsupported.resolve_left fun hsource => hstated (statedBy_of_ascii hsource)
    rcases Option.or_eq_some_iff.mp hvalue with hown | ⟨-, hfound⟩
    · exact h ⟨v, hown, hblank, hstated, hcontained, hspoken⟩
    · exact hstated (statedBy_of_findSome hfound)

end Invented

/-- **No owner and no deadline is made up exactly if no value of the model is in the transcript by accident.** -/
theorem never_invented_iff (L : Letters) (ir : MeetingIr) (m : MergedFindings) (t : Transcript) :
    (∀ a ∈ (reconcile L ir m t).actionItems, ∀ field, NotInvented L m t field a) ↔
      ∀ a ∈ ir.actionItems, ∀ field, ¬ ByAccident L m t field a := by
  simp only [actionItems_reconcile, List.forall_mem_map, notInvented_iff]

/-- An action item whose owner is the model's. -/
def owned (owner : Option Text) : ActionItem := { description := "ship".toList, owner := owner }

/-- A meeting of one segment in which nobody is named. -/
def nameless : Transcript := { segments := [{ start := .num 0, «end» := .num 1, text := "we also ship".toList }] }

/-- **An owner is kept because of the letters of another word.** -/
theorem owner_invented : ¬ ∀ (L : Letters) (ir : MeetingIr) (m : MergedFindings) (t : Transcript),
    ∀ a ∈ (reconcile L ir m t).actionItems, ∀ field, NotInvented L m t field a := by
  intro h
  have hkept := h ascii { actionItems := [owned (some "Al".toList)] } {} nameless
    (reconcileAction ascii {} (heard ascii nameless) (owned (some "Al".toList))) List.mem_cons_self .owner
    "Al".toList (by decide +kernel)
  rcases hkept with ⟨s, hs, -⟩ | ⟨seg, hseg, hwhole⟩
  · exact absurd hs List.not_mem_nil
  · rw [List.mem_singleton.mp hseg] at hwhole
    exact absurd hwhole (by decide +kernel)

/-! ### Values that a finding states -/

/-- The field is absent or blank. -/
def Lacks (field : Field) (a : ActionItem) : Prop := ∀ v ∈ field.of a, trim v = []

/-- A similar finding states a value. -/
def Stated (L : Letters) (m : MergedFindings) (field : Field) (a : ActionItem) : Prop :=
  ∃ s ∈ similarTo L m a, ¬ Lacks field s

/-- **A value that is lacking is recovered**: if a similar finding states one, `b` has one that such a finding
states. -/
def Recovered (L : Letters) (m : MergedFindings) (field : Field) (a b : ActionItem) : Prop :=
  Lacks field a → Stated L m field a →
    ∃ v ∈ field.of b, trim v ≠ [] ∧ ∃ s ∈ similarTo L m a, field.of s = some v

/-- **No blank stands before the value**: where a value is lacking that a similar finding states, the field is absent
altogether, and the first similar finding that has one does not have a blank one. -/
def Unshadowed (L : Letters) (m : MergedFindings) (field : Field) (a : ActionItem) : Prop :=
  Lacks field a → Stated L m field a →
    field.of a = none ∧ ∀ v ∈ (similarTo L m a).findSome? field.of, trim v ≠ []

section Recovered
variable {L : Letters} {m : MergedFindings} {a s : ActionItem} {v lower : Text} {field : Field}

theorem not_lacks_iff : ¬ Lacks field s ↔ ∃ v ∈ field.of s, trim v ≠ [] := by
  simp [Lacks]

/-- If a similar finding states a value, there is a first one that has any. -/
theorem findSome_of_stated (h : Stated L m field a) : ∃ v, (similarTo L m a).findSome? field.of = some v := by
  obtain ⟨s, hs, hstated⟩ := h
  obtain ⟨v, hv, -⟩ := not_lacks_iff.mp hstated
  have hsome : ((similarTo L m a).findSome? field.of).isSome :=
    List.findSome?_isSome_iff.mpr ⟨s, hs, Option.isSome_of_mem hv⟩
  exact Option.isSome_iff_exists.mp hsome

theorem recovered_reconcileAction :
    Recovered L m field a (reconcileAction L m lower a) ↔ Unshadowed L m field a := by
  refine forall_congr' fun hlacks => forall_congr' fun hstated => ?_
  obtain ⟨first, hfirst⟩ := findSome_of_stated hstated
  rw [of_reconcileAction, hfirst]
  constructor
  · rintro ⟨v, hv, hblank, -⟩
    obtain ⟨hvalue, -, -⟩ := guardField_eq_some_iff.mp hv
    rcases Option.or_eq_some_iff.mp hvalue with hown | ⟨hnone, hfound⟩
    · exact absurd (hlacks v hown) hblank
    · rw [hfound]
      exact ⟨hnone, fun u hu => Option.some.inj hu ▸ hblank⟩
  · rintro ⟨hnone, hblank⟩
    obtain ⟨s, hs, hsome⟩ := List.exists_of_findSome?_eq_some hfirst
    refine ⟨first, guardField_eq_some_iff.mpr ⟨?_, hblank first rfl, Or.inl ⟨s, hs, first, hsome, rfl⟩⟩,
      hblank first rfl, s, hs, hsome⟩
    rw [hnone, Option.none_or]

end Recovered

/-- **Every owner and deadline that a similar finding states is recovered exactly if no blank stands before it.** -/
theorem recovered_iff (L : Letters) (ir : MeetingIr) (m : MergedFindings) (t : Transcript) :
    List.Forall₂ (fun a b => ∀ field, Recovered L m field a b) ir.actionItems (reconcile L ir m t).actionItems ↔
      ∀ a ∈ ir.actionItems, ∀ field, Unshadowed L m field a := by
  simp only [actionItems_reconcile, List.forall₂_map_right_iff, List.forall₂_same, recovered_reconcileAction]

/-- **A blank owner stands before the one that a finding states.** -/
theorem owner_shadowed : ¬ ∀ (L : Letters) (ir : MeetingIr) (m : MergedFindings) (t : Transcript),
    List.Forall₂ (fun a b => ∀ field, Recovered L m field a b) ir.actionItems (reconcile L ir m t).actionItems := by
  intro h
  have hrecovered := h ascii { actionItems := [owned (some [])] } { actionItems := [owned (some "Avi".toList)] } {}
  rw [actionItems_reconcile, List.forall₂_map_right_iff, List.forall₂_same] at hrecovered
  have hstated : Stated ascii { actionItems := [owned (some "Avi".toList)] } .owner (owned (some [])) :=
    ⟨owned (some "Avi".toList), List.mem_filter.mpr ⟨List.mem_cons_self, by decide +kernel⟩,
      fun hlacks => absurd (hlacks "Avi".toList rfl) (by decide)⟩
  obtain ⟨v, hv, -⟩ := hrecovered _ List.mem_cons_self .owner (fun v hv => Option.some.inj hv ▸ rfl) hstated
  cases hv

/-! ### Participants -/

/-- The ids of the participants. -/
def idsOf (ps : List Participant) : List Text := ps.map Participant.id

/-- Somebody speaks under the id. -/
def Speaker (t : Transcript) (id : Text) : Prop := ∃ seg ∈ t.segments, seg.speakerId = some id

/-- **The participants are the speakers**, each of them once. -/
structure AreSpeakers (t : Transcript) (ps : List Participant) : Prop where
  once : (idsOf ps).Nodup
  speakers : ∀ id, id ∈ idsOf ps ↔ Speaker t id

/-- The loop of `speaker_ids`, once. -/
def noteSpeaker (seen : List Text) (seg : TranscriptSegment) : List Text :=
  match seg.speakerId with
  | some id => if seen.contains id then seen else seen ++ [id]
  | none => seen

section Participants
variable {t : Transcript} {ps : List Participant} {speakers : List Text} {id : Text}

theorem mem_noteSpeaker {seen : List Text} {seg : TranscriptSegment} :
    id ∈ noteSpeaker seen seg ↔ id ∈ seen ∨ seg.speakerId = some id := by
  unfold noteSpeaker
  cases seg.speakerId with
  | none => simp
  | some speaker =>
    dsimp only
    split_ifs with hseen
    · rw [Option.some.injEq]
      constructor
      · exact Or.inl
      · rintro (h | rfl)
        · exact h
        · exact List.contains_iff_mem.mp hseen
    · rw [List.mem_append, List.mem_singleton, Option.some.injEq, eq_comm (a := id)]

theorem mem_speakerIds : id ∈ speakerIds t ↔ Speaker t id := by
  have hfold (segs : List TranscriptSegment) (seen : List Text) :
      id ∈ segs.foldl noteSpeaker seen ↔ id ∈ seen ∨ ∃ seg ∈ segs, seg.speakerId = some id := by
    induction segs generalizing seen with
    | nil => simp
    | cons seg segs ih =>
      rw [List.foldl_cons, ih, mem_noteSpeaker, or_assoc, List.exists_mem_cons_iff]
  have hspeakers : speakerIds t = t.segments.foldl noteSpeaker [] := rfl
  rw [hspeakers, hfold]
  simp [Speaker]

/-- One speaker more. -/
theorem idsOf_backfill_cons (speaker : Text) : idsOf (backfill ps (speaker :: speakers)) =
    idsOf (backfill (if speaker ∈ idsOf ps then ps else ps ++ [{ id := speaker }]) speakers) := by
  have hany : (ps.any (·.id = speaker)) = true ↔ speaker ∈ idsOf ps := by simp [idsOf, List.any_eq_true]
  simp only [backfill, List.foldl_cons, hany]

theorem mem_idsOf_backfill : id ∈ idsOf (backfill ps speakers) ↔ id ∈ idsOf ps ∨ id ∈ speakers := by
  induction speakers generalizing ps with
  | nil => simp [backfill]
  | cons speaker speakers ih =>
    rw [idsOf_backfill_cons, ih, List.mem_cons]
    split_ifs with hmem
    · constructor
      · exact fun h => h.imp_right Or.inr
      · rintro (h | rfl | h)
        · exact Or.inl h
        · exact Or.inl hmem
        · exact Or.inr h
    · simp [idsOf, or_assoc]

theorem nodup_backfill : (idsOf (backfill ps speakers)).Nodup ↔ (idsOf ps).Nodup := by
  induction speakers generalizing ps with
  | nil => rfl
  | cons speaker speakers ih =>
    rw [idsOf_backfill_cons, ih]
    split_ifs with hmem
    · rfl
    · have hsnoc : idsOf (ps ++ [{ id := speaker }]) = idsOf ps ++ [speaker] := by simp [idsOf]
      rw [hsnoc, List.nodup_append]
      constructor
      · exact fun h => h.1
      · intro h
        refine ⟨h, List.nodup_singleton speaker, fun x hx y hy hxy => hmem ?_⟩
        rw [← List.mem_singleton.mp hy, ← hxy]
        exact hx

end Participants

/-- **The participants are the speakers exactly if the model listed none twice and only speakers.** -/
theorem participants_iff (L : Letters) (ir : MeetingIr) (m : MergedFindings) (t : Transcript) :
    AreSpeakers t (reconcile L ir m t).participants ↔
      (idsOf ir.participants).Nodup ∧ ∀ id ∈ idsOf ir.participants, Speaker t id := by
  have hparticipants : (reconcile L ir m t).participants = backfill ir.participants (speakerIds t) := rfl
  rw [hparticipants]
  constructor
  · intro h
    exact ⟨nodup_backfill.mp h.once, fun id hid => (h.speakers id).mp (mem_idsOf_backfill.mpr (Or.inl hid))⟩
  · rintro ⟨honce, hspeakers⟩
    refine ⟨nodup_backfill.mpr honce, fun id => ?_⟩
    rw [mem_idsOf_backfill, mem_speakerIds]
    exact ⟨fun h => h.elim (hspeakers id) fun h => h, Or.inr⟩

/-- **A participant of the model's stays**, though nobody speaks. -/
theorem participant_invented : ¬ ∀ (L : Letters) (ir : MeetingIr) (m : MergedFindings) (t : Transcript),
    AreSpeakers t (reconcile L ir m t).participants := by
  intro h
  have hspeakers := (h ascii { participants := [{ id := "S9".toList }] } {} {}).speakers "S9".toList
  obtain ⟨seg, hseg, -⟩ := hspeakers.mp List.mem_cons_self
  exact absurd hseg List.not_mem_nil

end Notely.Engine.OwnerGuard
