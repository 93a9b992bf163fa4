import Notely.Desktop.AskState

/-! # No conversation is lost, if nothing is asked before the history is there

`restore` of `Desktop/AskState` replaces the list by what it has loaded, whatever was asked or deleted since it began
to load: a conversation started in the meantime is dropped, with the answer still to come, and a save that is made
before the list is there overwrites those stored (`conversation_lost`). If `send` and `deleteChat` wait for the
restored list, nothing is lost in whatever order they go on (`nothing_lost`).

* `Ledger`: the conversations as they should be, each call taking effect where it is called or answered.
* `Apart`: no call of one kind while the other is under way.
* `Inv`: memory and ledger agree, and so does the store when no save is to come. -/

namespace Notely.Desktop.AskHistory

open Notely.Lib.Strings Notely.Lib.Lts Notely.Desktop.Dart Notely.Desktop.AskStore Notely.Desktop.AskState

/-! ### The ledger -/

/-- The conversations as they should be. -/
abbrev Ledger := List AskConversation

/-- A conversation is changed. -/
def Ledger.change (id : Text) (f : AskConversation → AskConversation) (l : Ledger) : Ledger :=
  l.map fun c => if c.id = id then f c else c

/-- A question is asked. -/
def question (q : Text) (c : AskConversation) : AskConversation := { c with messages := c.messages ++ [.user q] }

/-- It is answered. -/
def answer (a : AskAnswer) (millis : Int64) (q : Text) (c : AskConversation) : AskConversation :=
  { c with
    messages := c.messages ++ [.assistant a]
    updatedAt := millis
    title := if c.title = [] then titleFrom q else c.title }

/-- The controller, the ledger, whether a `restore` has finished, and the ids of earlier sessions. -/
structure Session where
  ctrl : AskController
  ledger : Ledger
  restored : Bool
  past : List Text

/-- The ledger after an action. -/
def Session.record (s : Session) : Action → Ledger
  | .send query stashRoot micros millis =>
    if s.ctrl.Ignores query then s.ledger
    else
      match s.ctrl.continued stashRoot with
      | some o => s.ledger.change o.2.id (question (trim query))
      | none => s.ledger ++ [question (trim query) (s.ctrl.newConversation (trim query) stashRoot micros millis)]
  | .deleteChat id => s.ledger.filter fun c => c.id ≠ id
  | .answered i a millis =>
    match s.ctrl.tasks[i]? with
    | some (.asking _ id query) => s.ledger.change id (answer (a.getD somethingWrong) millis query)
    | _ => s.ledger
  | _ => s.ledger

/-- The clock has moved on since the earlier sessions: no id of theirs is drawn again. -/
def Session.Fresh (s : Session) : Action → Prop
  | .send _ _ micros _ => newId micros (s.ctrl.seq + 1) ∉ s.past
  | _ => True

instance (s : Session) : DecidablePred s.Fresh
  | .send _ _ _ _ => inferInstanceAs (Decidable (_ ∉ _))
  | .restore | .deleteChat _ | .newChat | .openChat _ | .setStash _ | .prefs _ _ | .loaded _ | .answered _ _ _ =>
    isTrue trivial

/-- A `restore` finishes. -/
def Action.restores : Action → Bool
  | .loaded _ => true
  | _ => false

def Session.step (s : Session) (a : Action) : Option Session :=
  if s.Fresh a then
    (s.ctrl.step a).map fun c => { s with ctrl := c, ledger := s.record a, restored := s.restored || Action.restores a }
  else none

/-- What the preferences hold at start-up: conversations with different ids. -/
structure Past where
  stored : Stored
  nodup : ((load stored).map AskConversation.id).Nodup

/-- Start-up. -/
def start (p : Past) : Session :=
  ⟨{ prefs := p.stored }, load p.stored, false, (load p.stored).map AskConversation.id⟩

/-- **Memory and store hold what they should**: the conversations that were stored and those that were started, without
those deleted, each with all that was said in it. -/
def Complete (s : Session) : Prop := s.ctrl.all.map Prod.snd = s.ledger ∧ load s.ctrl.prefs = s.ledger

/-! ### The condition -/

/-- The call is a `restore`. -/
def Reads : Task → Prop
  | .loading | .restoring _ => True
  | .asking _ _ _ | .saving => False

/-- The call is to save the list. -/
def Writes : Task → Prop
  | .asking _ _ _ | .saving => True
  | .loading | .restoring _ => False

instance : DecidablePred Reads
  | .loading | .restoring _ => isTrue trivial
  | .asking _ _ _ | .saving => isFalse id

instance : DecidablePred Writes
  | .asking _ _ _ | .saving => isTrue trivial
  | .loading | .restoring _ => isFalse id

/-- No `restore` is suspended. -/
def NoReads (ts : List Task) : Prop := ∀ t ∈ ts, ¬ Reads t

/-- No `send` and no `deleteChat` is suspended. -/
def NoWrites (ts : List Task) : Prop := ∀ t ∈ ts, ¬ Writes t

instance (ts : List Task) : Decidable (NoReads ts) := inferInstanceAs (Decidable (∀ t ∈ ts, _))
instance (ts : List Task) : Decidable (NoWrites ts) := inferInstanceAs (Decidable (∀ t ∈ ts, _))

/-- **Restoring and asking are kept apart**: `send` and `deleteChat` are called when a `restore` has finished and none
is under way, and `restore` when neither of them is; and no save fails. -/
def Apart (s : Session) : Action → Prop
  | .send _ _ _ _ | .deleteChat _ => s.restored = true ∧ NoReads s.ctrl.tasks
  | .restore => NoWrites s.ctrl.tasks
  | .prefs i ok => s.ctrl.tasks[i]? = some .saving → ok = true
  | _ => True

instance (s : Session) : DecidablePred (Apart s)
  | .send _ _ _ _ | .deleteChat _ => inferInstanceAs (Decidable (_ ∧ _))
  | .restore => inferInstanceAs (Decidable (NoWrites _))
  | .prefs _ _ => inferInstanceAs (Decidable (_ → _))
  | .newChat | .openChat _ | .setStash _ | .loaded _ | .answered _ _ _ => isTrue trivial

/-! ### The invariant -/

/-- The call waits for the service. -/
def isAsking : Task → Bool
  | .asking _ _ _ => true
  | .loading | .restoring _ | .saving => false

/-- Messages without a placeholder. -/
def Settled (ms : List AskMessage) : Prop := ∀ m ∈ ms, m.isLoading = false

/-- What is asked is in one conversation, or in none any more, and its placeholder is the last message. -/
def AskedOf (all : List AskObject) : Task → Prop
  | .asking ref id _ => ∀ o ∈ all, (o.1 = ref ↔ o.2.id = id) ∧
      (o.1 = ref → ∃ ms, o.2.messages = ms ++ [.loading] ∧ Settled ms)
  | .loading | .restoring _ | .saving => True

/-- **Memory is the ledger**, but for the placeholder of the question that is asked. -/
structure Core (c : AskController) (l : Ledger) : Prop where
  memory : c.all.map (fun o => o.2.persisted) = l
  clean : ∀ o ∈ c.all, Settled o.2.messages ∨ ∃ id q, .asking o.1 id q ∈ c.tasks
  refs : (c.all.map Prod.fst).Nodup
  below : ∀ o ∈ c.all, o.1 < c.objects
  single : c.tasks.countP isAsking = c.busy.toNat
  asked : ∀ t ∈ c.tasks, AskedOf c.all t

/-- Before the first `restore` has finished there is nothing, and nothing to be written. -/
structure Empty (c : AskController) : Prop where
  all : c.all = []
  quiet : NoWrites c.tasks
  busy : c.busy = false

/-- The ids are different, and were drawn before. -/
structure Ids (past : List Text) (seq : ℕ) (l : Ledger) : Prop where
  nodup : (l.map AskConversation.id).Nodup
  drawn : ∀ c ∈ l, c.id ∈ past ∨ ∃ micros n, n ≤ seq ∧ c.id = newId micros n

/-- **The invariant.** -/
structure Inv (s : Session) : Prop where
  apart : NoReads s.ctrl.tasks ∨ NoWrites s.ctrl.tasks
  core : s.restored = true → Core s.ctrl s.ledger
  empty : s.restored = false → Empty s.ctrl
  ids : Ids s.past s.ctrl.seq s.ledger
  stored : NoWrites s.ctrl.tasks → load s.ctrl.prefs = s.ledger
  read : ∀ loaded, .restoring loaded ∈ s.ctrl.tasks → loaded = s.ledger

section Tasks
variable {ts : List Task} {t : Task} {i : ℕ}

/-- The call that goes on, and the others. -/
theorem perm_of_getElem? (h : ts[i]? = some t) : (t :: ts.eraseIdx i).Perm ts := by
  obtain ⟨hi, rfl⟩ := List.getElem?_eq_some_iff.mp h
  exact List.getElem_cons_eraseIdx_perm hi

theorem not_isAsking (h : ¬ Writes t) : ¬ isAsking t = true := by
  cases t with
  | asking _ _ _ => exact absurd trivial h
  | loading | restoring _ | saving => exact Bool.false_ne_true

theorem countP_isAsking_of_noWrites (h : NoWrites ts) : ts.countP isAsking = 0 :=
  List.countP_eq_zero.mpr fun t ht => not_isAsking (h t ht)

/-- A call that does not wait for the service is about no conversation. -/
theorem askedOf_of_not_isAsking {all : List AskObject} (h : ¬ isAsking t = true) : AskedOf all t := by
  cases t with
  | asking _ _ _ => exact absurd rfl h
  | loading | restoring _ | saving => trivial

theorem NoReads.concat (h : NoReads ts) (ht : ¬ Reads t) : NoReads (ts ++ [t]) := by
  intro t' ht'
  rcases List.mem_append.mp ht' with ht' | ht'
  · exact h t' ht'
  · rwa [List.mem_singleton.mp ht']

theorem NoWrites.concat (h : NoWrites ts) (ht : ¬ Writes t) : NoWrites (ts ++ [t]) := by
  intro t' ht'
  rcases List.mem_append.mp ht' with ht' | ht'
  · exact h t' ht'
  · rwa [List.mem_singleton.mp ht']

theorem NoReads.eraseIdx (h : NoReads ts) (i : ℕ) : NoReads (ts.eraseIdx i) :=
  fun t ht => h t (List.mem_of_mem_eraseIdx ht)

theorem NoWrites.eraseIdx (h : NoWrites ts) (i : ℕ) : NoWrites (ts.eraseIdx i) :=
  fun t ht => h t (List.mem_of_mem_eraseIdx ht)

end Tasks

section Ledger
variable {id : Text} {f : AskConversation → AskConversation} {l : Ledger} {past : List Text} {seq : ℕ}

/-- A conversation keeps its id. -/
theorem ids_change (hf : ∀ c, (f c).id = c.id) : (l.change id f).map AskConversation.id = l.map AskConversation.id := by
  unfold Ledger.change
  rw [List.map_map]
  refine List.map_congr_left fun c _ => ?_
  dsimp only [Function.comp]
  split_ifs <;> simp [hf]

theorem Ids.change (h : Ids past seq l) (hf : ∀ c, (f c).id = c.id) : Ids past seq (l.change id f) := by
  refine ⟨by rw [ids_change hf]; exact h.nodup, fun c hc => ?_⟩
  have hid : c.id ∈ (l.change id f).map AskConversation.id := List.mem_map_of_mem hc
  rw [ids_change hf] at hid
  obtain ⟨c', hc', he⟩ := List.mem_map.mp hid
  rw [← he]
  exact h.drawn c' hc'

theorem Ids.sublist {l' : Ledger} (h : Ids past seq l) (hl : l'.Sublist l) : Ids past seq l' :=
  ⟨h.nodup.sublist (hl.map _), fun c hc => h.drawn c (hl.subset hc)⟩

theorem digits_no_dash (n : ℕ) : '-' ∉ digits n := by
  intro h
  exact absurd (isDigit_of_mem_digits h) (by decide)

/-- The next id is a new one. -/
theorem Ids.fresh (h : Ids past seq l) {micros : ℕ} (hfresh : newId micros (seq + 1) ∉ past) :
    newId micros (seq + 1) ∉ l.map AskConversation.id := by
  intro hmem
  obtain ⟨c, hc, he⟩ := List.mem_map.mp hmem
  rcases h.drawn c hc with hpast | ⟨micros', n, hn, hid⟩
  · exact hfresh (he ▸ hpast)
  · have hsame : digits n = digits (seq + 1) :=
      (append_sep_inj (digits_no_dash _) (digits_no_dash _) (hid.symm.trans he)).2
    have heq : n = seq + 1 := digits_injective hsame
    omega

theorem Ids.concat (h : Ids past seq l) {c : AskConversation} {micros : ℕ} (hid : c.id = newId micros (seq + 1))
    (hfresh : newId micros (seq + 1) ∉ past) : Ids past (seq + 1) (l ++ [c]) := by
  refine ⟨?_, fun c' hc' => ?_⟩
  · rw [List.map_append, List.map_singleton, hid]
    exact (List.perm_append_singleton _ _).nodup_iff.mpr (List.nodup_cons.mpr ⟨h.fresh hfresh, h.nodup⟩)
  · rcases List.mem_append.mp hc' with hc' | hc'
    · exact (h.drawn c' hc').imp (fun h => h) fun ⟨m, n, hn, he⟩ => ⟨m, n, by omega, he⟩
    · rw [List.mem_singleton.mp hc']
      exact Or.inr ⟨micros, seq + 1, Nat.le_refl _, hid⟩

end Ledger

/-! ### Memory and ledger, step by step -/

section Messages
variable {ms : List AskMessage} {conv : AskConversation} {q : Text} {a : AskAnswer} {millis : Int64}

theorem filter_of_settled (h : Settled ms) : ms.filter (! ·.isLoading) = ms :=
  List.filter_eq_self.mpr fun m hm => by simp [h m hm]

theorem persisted_of_settled (h : Settled conv.messages) : conv.persisted = conv := by
  rw [AskConversation.persisted, filter_of_settled h]

theorem settled_of_persisted (h : conv.persisted = conv) : Settled conv.messages := by
  have hfilter : conv.messages.filter (! ·.isLoading) = conv.messages := congrArg AskConversation.messages h
  intro m hm
  simpa using List.filter_eq_self.mp hfilter m hm

theorem settled_append {m : AskMessage} (h : Settled ms) (hm : m.isLoading = false) : Settled (ms ++ [m]) := by
  intro m' hm'
  rcases List.mem_append.mp hm' with hm' | hm'
  · exact h m' hm'
  · rw [List.mem_singleton.mp hm']
    exact hm

theorem persisted_withQuestion : (withQuestion q conv).persisted = question q conv.persisted := by
  simp [withQuestion, question, AskConversation.persisted, AskMessage.isLoading]

/-- The answer takes the place of the placeholder. -/
theorem messages_withAnswer (h : conv.messages = ms ++ [.loading]) :
    (withAnswer a millis q conv).messages = ms ++ [.assistant a] := by
  simp [withAnswer, h]

theorem persisted_withAnswer (h : conv.messages = ms ++ [.loading]) :
    (withAnswer a millis q conv).persisted = answer a millis q conv.persisted := by
  simp [withAnswer, answer, AskConversation.persisted, AskMessage.isLoading, h]

end Messages

section Core
variable {c : AskController} {l : Ledger} {all : List AskObject} {o : AskObject} {conv : AskConversation} {q id : Text}
  {ref i : ℕ} {f g : AskConversation → AskConversation}

/-- An object that is changed is a conversation of the ledger that is. -/
theorem memory_update (hiff : ∀ o ∈ all, o.1 = ref ↔ o.2.id = id)
    (hfg : ∀ o ∈ all, o.1 = ref → (f o.2).persisted = g o.2.persisted) :
    (all.map fun o => if o.1 = ref then (o.1, f o.2) else o).map (fun o => o.2.persisted) =
      Ledger.change id g (all.map fun o => o.2.persisted) := by
  unfold Ledger.change
  rw [List.map_map, List.map_map]
  refine List.map_congr_left fun o ho => ?_
  have hid : o.2.persisted.id = o.2.id := rfl
  dsimp only [Function.comp]
  by_cases hr : o.1 = ref
  · rw [if_pos hr, hid, if_pos ((hiff o ho).mp hr)]
    exact hfg o ho hr
  · rw [if_neg hr, hid, if_neg (mt (hiff o ho).mpr hr)]

theorem refs_update : (all.map fun o => if o.1 = ref then (o.1, f o.2) else o).map Prod.fst = all.map Prod.fst := by
  rw [List.map_map]
  refine List.map_congr_left fun o _ => ?_
  dsimp only [Function.comp]
  split_ifs <;> rfl

/-- Number and id of an object go together. -/
theorem Core.ref_iff (h : Core c l) (hids : (l.map AskConversation.id).Nodup) (ho : o ∈ c.all) :
    ∀ o' ∈ c.all, o'.1 = o.1 ↔ o'.2.id = o.2.id := by
  have hnodup : (c.all.map fun o => o.2.id).Nodup := by
    rw [← h.memory, List.map_map] at hids
    exact hids
  intro o' ho'
  constructor
  · intro he
    rw [List.inj_on_of_nodup_map h.refs ho' ho he]
  · intro he
    rw [List.inj_on_of_nodup_map hnodup ho' ho he]

/-- Nothing is asked while the controller is not busy. -/
theorem Core.idle (h : Core c l) (hb : c.busy = false) : c.tasks.countP isAsking = 0 := by
  rw [h.single, hb]
  rfl

theorem Core.settled (h : Core c l) (hb : c.busy = false) : ∀ o ∈ c.all, Settled o.2.messages := by
  intro o ho
  rcases h.clean o ho with hs | ⟨id, q, hmem⟩
  · exact hs
  · exact absurd (List.countP_eq_zero.mp (h.idle hb) _ hmem) (by simp [isAsking])

theorem Core.askedOf (h : Core c l) (hb : c.busy = false) {all' : List AskObject} : ∀ t ∈ c.tasks, AskedOf all' t :=
  fun t ht => askedOf_of_not_isAsking (List.countP_eq_zero.mp (h.idle hb) t ht)

/-- A conversation is started. -/
theorem Core.create (h : Core c l) (hb : c.busy = false) (hm : conv.messages = []) :
    Core (c.create conv) (l ++ [conv]) := by
  have hsettled : Settled conv.messages := by
    rw [hm]
    exact fun m hm => by cases hm
  refine ⟨?_, fun o ho => ?_, ?_, fun o ho => ?_, h.single, h.askedOf hb⟩
  · simp [AskController.create, h.memory, persisted_of_settled hsettled]
  · rcases List.mem_append.mp ho with ho | ho
    · exact Or.inl (h.settled hb o ho)
    · rw [List.mem_singleton.mp ho]
      exact Or.inl hsettled
  · have hnew : c.objects ∉ c.all.map Prod.fst := by
      intro hmem
      obtain ⟨o, ho, he⟩ := List.mem_map.mp hmem
      exact absurd (h.below o ho) (by omega)
    have hrefs : (c.create conv).all.map Prod.fst = c.all.map Prod.fst ++ [c.objects] := by
      simp [AskController.create]
    rw [hrefs]
    exact (List.perm_append_singleton _ _).nodup_iff.mpr (List.nodup_cons.mpr ⟨hnew, h.refs⟩)
  · rcases List.mem_append.mp ho with ho | ho
    · exact Nat.lt_succ_of_lt (h.below o ho)
    · rw [List.mem_singleton.mp ho]
      exact Nat.lt_succ_self _

/-- **A question is asked.** -/
theorem Core.ask (h : Core c l) (hids : (l.map AskConversation.id).Nodup) (hb : c.busy = false) (ho : o ∈ c.all) :
    Core (c.ask o q) (l.change o.2.id (question q)) := by
  have hiff := h.ref_iff hids ho
  have hmem : ∀ o' ∈ (c.ask o q).all, ∃ o1 ∈ c.all, o' = if o1.1 = o.1 then (o1.1, withQuestion q o1.2) else o1 :=
    fun o' ho' => by
      obtain ⟨o1, ho1, rfl⟩ := List.mem_map.mp ho'
      exact ⟨o1, ho1, rfl⟩
  refine ⟨?_, fun o' ho' => ?_, ?_, fun o' ho' => ?_, ?_, fun t ht => ?_⟩
  · rw [← h.memory]
    exact memory_update hiff fun _ _ _ => persisted_withQuestion
  · obtain ⟨o1, ho1, rfl⟩ := hmem o' ho'
    split_ifs with hr
    · exact Or.inr ⟨o.2.id, q, by simp [AskController.ask, AskController.suspend, hr]⟩
    · exact Or.inl (h.settled hb o1 ho1)
  · have hrefs : (c.ask o q).all.map Prod.fst = c.all.map Prod.fst := refs_update
    rw [hrefs]
    exact h.refs
  · obtain ⟨o1, ho1, rfl⟩ := hmem o' ho'
    split_ifs <;> exact h.below o1 ho1
  · simp [AskController.ask, AskController.suspend, AskController.update, h.idle hb, isAsking]
  · rcases List.mem_append.mp ht with ht | ht
    · exact h.askedOf hb t ht
    · rw [List.mem_singleton.mp ht]
      intro o' ho'
      obtain ⟨o1, ho1, rfl⟩ := hmem o' ho'
      by_cases hr : o1.1 = o.1
      · rw [if_pos hr]
        refine ⟨hiff o1 ho1, fun _ => ⟨o1.2.messages ++ [.user q], by simp [withQuestion], ?_⟩⟩
        exact settled_append (h.settled hb o1 ho1) rfl
      · rw [if_neg hr]
        exact ⟨hiff o1 ho1, fun he => absurd he hr⟩

/-- **It is answered**, whether its conversation is still in the list or not. -/
theorem Core.answered {a : Option AskAnswer} {millis : Int64} (h : Core c l)
    (ht : c.tasks[i]? = some (.asking ref id q)) :
    Core ((c.leave i).answered ref q a millis) (l.change id (answer (a.getD somethingWrong) millis q)) := by
  have hperm := perm_of_getElem? ht
  have hasked : AskedOf c.all (.asking ref id q) := h.asked _ (List.mem_of_getElem? ht)
  -- it was the only question
  have hrest : (c.tasks.eraseIdx i).countP isAsking = 0 := by
    have hcount : (c.tasks.eraseIdx i).countP isAsking + 1 = c.busy.toNat := by
      rw [← h.single, ← hperm.countP_eq, List.countP_cons_of_pos rfl]
    have hle : c.busy.toNat ≤ 1 := Bool.toNat_le _
    omega
  have honly : ∀ ref' id' q', .asking ref' id' q' ∈ c.tasks → ref' = ref := fun ref' id' q' hmem => by
    rcases List.mem_cons.mp (hperm.mem_iff.mpr hmem) with he | hmem
    · cases he
      rfl
    · exact absurd (List.countP_eq_zero.mp hrest _ hmem) (by simp [isAsking])
  refine ⟨?_, fun o' ho' => ?_, ?_, fun o' ho' => ?_, ?_, fun t ht' => ?_⟩
  · rw [← h.memory]
    refine memory_update (fun o ho => (hasked o ho).1) fun o ho hr => ?_
    obtain ⟨ms, hms, -⟩ := (hasked o ho).2 hr
    exact persisted_withAnswer hms
  · obtain ⟨o1, ho1, rfl⟩ := List.mem_map.mp ho'
    by_cases hr : o1.1 = ref
    · rw [if_pos hr]
      obtain ⟨ms, hms, hsettled⟩ := (hasked o1 ho1).2 hr
      refine Or.inl ?_
      rw [messages_withAnswer hms]
      exact settled_append hsettled rfl
    · rw [if_neg hr]
      refine Or.inl ((h.clean o1 ho1).resolve_right ?_)
      rintro ⟨id', q', hmem⟩
      exact hr (honly _ _ _ hmem)
  · have hrefs : ((c.leave i).answered ref q a millis).all.map Prod.fst = c.all.map Prod.fst := refs_update
    rw [hrefs]
    exact h.refs
  · obtain ⟨o1, ho1, rfl⟩ := List.mem_map.mp ho'
    split_ifs <;> exact h.below o1 ho1
  · simp [AskController.answered, AskController.suspend, AskController.update, AskController.leave, hrest, isAsking]
  · rcases List.mem_append.mp ht' with ht' | ht'
    · exact askedOf_of_not_isAsking (List.countP_eq_zero.mp hrest t ht')
    · rw [List.mem_singleton.mp ht']
      trivial

/-- What is said of a part of the objects. -/
theorem AskedOf.subset {all' : List AskObject} {t : Task} (h : AskedOf all t) (hsub : all' ⊆ all) : AskedOf all' t := by
  cases t with
  | asking ref id q => exact fun o ho => h o (hsub ho)
  | loading | restoring _ | saving => trivial

/-- A conversation is deleted. -/
theorem Core.deleteChat (h : Core c l) (id : Text) : Core (c.deleteChat id) (l.filter fun c => c.id ≠ id) := by
  have hsub : (c.deleteChat id).all.Sublist c.all := List.filter_sublist
  refine ⟨?_, fun o ho => ?_, h.refs.sublist (hsub.map _), fun o ho => h.below o (hsub.subset ho), ?_, fun t ht => ?_⟩
  · rw [← h.memory, List.filter_map]
    rfl
  · exact (h.clean o (hsub.subset ho)).imp (fun h => h) fun ⟨id, q, hmem⟩ => ⟨id, q, List.mem_append_left _ hmem⟩
  · simp [AskController.deleteChat, AskController.suspend, h.single, isAsking]
  · rcases List.mem_append.mp ht with ht | ht
    · exact (h.asked t ht).subset hsub.subset
    · rw [List.mem_singleton.mp ht]
      trivial

/-- The list is saved, and loaded as it is in the ledger. -/
theorem Core.saved (h : Core c l) (ht : c.tasks[i]? = some .saving) :
    Core { c.leave i with prefs := save (c.all.map Prod.snd) } l ∧ load (save (c.all.map Prod.snd)) = l := by
  have hperm := perm_of_getElem? ht
  refine ⟨⟨h.memory, fun o ho => ?_, h.refs, h.below, ?_, fun t ht' => ?_⟩, ?_⟩
  · refine (h.clean o ho).imp (fun h => h) fun ⟨id, q, hmem⟩ => ⟨id, q, ?_⟩
    rcases List.mem_cons.mp (hperm.mem_iff.mpr hmem) with he | hmem
    · cases he
    · exact hmem
  · have hcount : (c.tasks.eraseIdx i).countP isAsking = c.busy.toNat := by
      rw [← h.single, ← hperm.countP_eq, List.countP_cons_of_neg (by simp [isAsking])]
    exact hcount
  · exact h.asked t (List.mem_of_mem_eraseIdx ht')
  · rw [load_save, List.map_map]
    exact h.memory

/-- **The list is replaced by what is in the ledger.** -/
theorem core_restored (hl : ∀ c ∈ l, Settled c.messages) (hquiet : NoWrites c.tasks) (hb : c.busy = false) :
    Core (c.restored l) l := by
  have hsnd : ∀ o ∈ c.objectsOf l, o.2 ∈ l := fun o ho => by
    rw [← c.objectsOf_snd l]
    exact List.mem_map_of_mem ho
  obtain ⟨activeId, he⟩ := c.restored_eq l
  rw [he]
  refine ⟨?_, fun o ho => Or.inl (hl _ (hsnd o ho)), ?_, fun o ho => ?_, ?_, fun t ht => ?_⟩
  · calc (c.objectsOf l).map (fun o => o.2.persisted)
        = (c.objectsOf l).map Prod.snd :=
          List.map_congr_left fun o ho => persisted_of_settled (hl _ (hsnd o ho))
      _ = l := c.objectsOf_snd l
  · dsimp only
    rw [c.objectsOf_fst]
    exact List.nodup_range'
  · have hfst : o.1 ∈ List.range' c.objects l.length := by
      rw [← c.objectsOf_fst l]
      exact List.mem_map_of_mem ho
    exact (List.mem_range'_1.mp hfst).2
  · dsimp only
    rw [hb]
    exact countP_isAsking_of_noWrites hquiet
  · exact askedOf_of_not_isAsking (not_isAsking (hquiet t ht))

end Core

/-! ### Runs -/

section Steps
variable {s s' : Session} {i : ℕ}

/-- What is in the ledger has no placeholders. -/
theorem Inv.settled (h : Inv s) (hquiet : NoWrites s.ctrl.tasks) : ∀ c ∈ s.ledger, Settled c.messages := by
  intro c hc
  rw [← h.stored hquiet] at hc
  exact settled_of_persisted (persisted_of_mem_load hc)

/-- Where something is to be written, a `restore` has finished and none is under way. -/
theorem Inv.writing (h : Inv s) {t : Task} (ht : t ∈ s.ctrl.tasks) (hw : Writes t) :
    s.restored = true ∧ NoReads s.ctrl.tasks := by
  constructor
  · by_contra hnot
    exact (h.empty (Bool.eq_false_iff.mpr hnot)).quiet t ht hw
  · exact h.apart.resolve_right fun hquiet => hquiet t ht hw

/-- A `restore` begins, or goes on to what it has loaded, or is given up. -/
theorem Inv.reading (h : Inv s) (hquiet : NoWrites s.ctrl.tasks) {ts : List Task} (hts : NoWrites ts)
    (hread : ∀ loaded, .restoring loaded ∈ ts → loaded = s.ledger) :
    Inv { s with ctrl := { s.ctrl with tasks := ts } } := by
  have hasked : ∀ t ∈ ts, AskedOf s.ctrl.all t := fun t ht => askedOf_of_not_isAsking (not_isAsking (hts t ht))
  refine ⟨Or.inr hts, fun hr => ?_, fun hr => ?_, h.ids, fun _ => h.stored hquiet, hread⟩
  · have hcore := h.core hr
    have hb : s.ctrl.busy.toNat = 0 := by rw [← hcore.single, countP_isAsking_of_noWrites hquiet]
    refine ⟨hcore.memory, fun o ho => Or.inl ?_, hcore.refs, hcore.below, ?_, hasked⟩
    · refine (hcore.clean o ho).resolve_right ?_
      rintro ⟨id, q, hmem⟩
      exact hquiet _ hmem trivial
    · exact (countP_isAsking_of_noWrites hts).trans hb.symm
  · exact ⟨(h.empty hr).all, hts, (h.empty hr).busy⟩

/-- While something is to be written, the store may be behind. -/
theorem inv_of_writing {t : Task} (hr : s.restored = true) (hcore : Core s.ctrl s.ledger)
    (hids : Ids s.past s.ctrl.seq s.ledger) (hreads : NoReads s.ctrl.tasks) (ht : t ∈ s.ctrl.tasks) (hw : Writes t) :
    Inv s where
  apart := Or.inl hreads
  core _ := hcore
  empty hnot := absurd (hnot.symm.trans hr) Bool.false_ne_true
  ids := hids
  stored hquiet := absurd hw (hquiet t ht)
  read _ hmem := absurd trivial (hreads _ hmem)

theorem Inv.send (h : Inv s) (hr : s.restored = true) (hreads : NoReads s.ctrl.tasks) {query stashRoot : Text}
    {micros : ℕ} {millis : Int64} (hfresh : newId micros (s.ctrl.seq + 1) ∉ s.past) :
    Inv { s with
      ctrl := s.ctrl.send query stashRoot micros millis
      ledger := s.record (.send query stashRoot micros millis) } := by
  have hcore := h.core hr
  unfold AskController.send Session.record
  dsimp only
  by_cases hignores : s.ctrl.Ignores query
  · rw [if_pos hignores, if_pos hignores]
    exact h
  · rw [if_neg hignores, if_neg hignores]
    have hb : s.ctrl.busy = false := Bool.eq_false_iff.mpr fun hb => hignores (Or.inr hb)
    have htasks (o : AskObject) : NoReads (s.ctrl.tasks ++ [.asking o.1 o.2.id (trim query)]) :=
      hreads.concat fun hread => hread
    cases hcontinued : s.ctrl.continued stashRoot with
    | some o =>
      have ho : o ∈ s.ctrl.all := List.mem_of_find?_eq_some (Option.filter_eq_some_iff.mp hcontinued).1
      exact inv_of_writing (t := .asking o.1 o.2.id (trim query)) hr (hcore.ask h.ids.nodup hb ho)
        (h.ids.change fun _ => rfl) (htasks o) (by simp [AskController.ask, AskController.suspend]) trivial
    | none =>
      dsimp only
      generalize hconv : s.ctrl.newConversation (trim query) stashRoot micros millis = conv
      have hid : conv.id = newId micros (s.ctrl.seq + 1) := by rw [← hconv]; rfl
      have hmessages : conv.messages = [] := by rw [← hconv]; rfl
      have hcreated : Core (s.ctrl.create conv) (s.ledger ++ [conv]) := hcore.create hb hmessages
      have hids : Ids s.past (s.ctrl.seq + 1) (s.ledger ++ [conv]) := h.ids.concat hid hfresh
      have hledger : s.ledger ++ [question (trim query) conv] =
          Ledger.change conv.id (question (trim query)) (s.ledger ++ [conv]) := by
        have hothers : s.ledger.change conv.id (question (trim query)) = s.ledger := by
          refine (List.map_congr_left fun c hc => ?_).trans (List.map_id' _)
          refine if_neg fun he => h.ids.fresh hfresh ?_
          rw [← hid, ← he]
          exact List.mem_map_of_mem hc
        unfold Ledger.change at hothers ⊢
        rw [List.map_append, hothers]
        simp
      rw [hledger]
      have ho : (s.ctrl.objects, conv) ∈ (s.ctrl.create conv).all := by simp [AskController.create]
      exact inv_of_writing (t := .asking s.ctrl.objects conv.id (trim query)) hr
        (hcreated.ask hids.nodup hb ho) (hids.change fun _ => rfl) (htasks (s.ctrl.objects, conv))
        (by simp [AskController.ask, AskController.suspend]) trivial

theorem Inv.answered (h : Inv s) {ref : ℕ} {id query : Text} {a : Option AskAnswer} {millis : Int64}
    (ht : s.ctrl.tasks[i]? = some (.asking ref id query)) :
    Inv { s with
      ctrl := (s.ctrl.leave i).answered ref query a millis
      ledger := s.ledger.change id (answer (a.getD somethingWrong) millis query) } := by
  obtain ⟨hr, hreads⟩ := h.writing (List.mem_of_getElem? ht) trivial
  exact inv_of_writing (t := .saving) hr ((h.core hr).answered ht) (h.ids.change fun _ => rfl)
    ((hreads.eraseIdx i).concat fun hread => hread) (List.mem_append_right _ (List.mem_singleton_self _)) trivial

theorem Inv.deleteChat (h : Inv s) (hr : s.restored = true) (hreads : NoReads s.ctrl.tasks) (id : Text) :
    Inv { s with ctrl := s.ctrl.deleteChat id, ledger := s.ledger.filter fun c => c.id ≠ id } := by
  exact inv_of_writing (t := .saving) hr ((h.core hr).deleteChat id) (h.ids.sublist List.filter_sublist)
    (hreads.concat fun hread => hread) (List.mem_append_right _ (List.mem_singleton_self _)) trivial

/-- A call gets the preferences: what `restore` has loaded is the ledger, and what a save writes is. -/
theorem Inv.prefs (h : Inv s) {t : Task} {ok : Bool} {c : AskController} (ht : s.ctrl.tasks[i]? = some t)
    (hok : t = .saving → ok = true) (hstep : (s.ctrl.leave i).gotPrefs ok t = some c) :
    Inv { s with ctrl := c } := by
  have hmem : t ∈ s.ctrl.tasks := List.mem_of_getElem? ht
  cases t with
  | loading =>
    have hquiet : NoWrites s.ctrl.tasks := h.apart.resolve_left fun hreads => hreads _ hmem trivial
    have hread : ∀ loaded, .restoring loaded ∈ s.ctrl.tasks.eraseIdx i → loaded = s.ledger := fun loaded hm =>
      h.read loaded (List.mem_of_mem_eraseIdx hm)
    cases hstep
    cases ok with
    | false => exact h.reading hquiet (hquiet.eraseIdx i) hread
    | true =>
      refine h.reading hquiet ((hquiet.eraseIdx i).concat fun hwrite => hwrite) fun loaded hm => ?_
      rcases List.mem_append.mp hm with hm | hm
      · exact hread loaded hm
      · cases List.mem_singleton.mp hm
        exact h.stored hquiet
  | saving =>
    obtain ⟨hr, hreads⟩ := h.writing hmem trivial
    obtain ⟨hcore, hstored⟩ := (h.core hr).saved ht
    cases hok rfl
    cases hstep
    exact ⟨Or.inl (hreads.eraseIdx i), fun _ => hcore, fun hnot => absurd (hnot.symm.trans hr) Bool.false_ne_true,
      h.ids, fun _ => hstored, fun _ hm => absurd trivial (hreads.eraseIdx i _ hm)⟩
  | restoring _ | asking _ _ _ => cases hstep

/-- **A `restore` finishes**: the list is replaced by what it was. -/
theorem Inv.loaded (h : Inv s) {loaded : List AskConversation} (ht : s.ctrl.tasks[i]? = some (.restoring loaded)) :
    Inv { s with ctrl := (s.ctrl.leave i).restored loaded, restored := true } := by
  have hmem : .restoring loaded ∈ s.ctrl.tasks := List.mem_of_getElem? ht
  have hquiet : NoWrites s.ctrl.tasks := h.apart.resolve_left fun hreads => hreads _ hmem trivial
  have hrest : NoWrites (s.ctrl.leave i).tasks := hquiet.eraseIdx i
  have hidle : (s.ctrl.leave i).busy = false := by
    cases hr : s.restored with
    | false => exact (h.empty hr).busy
    | true =>
      have hzero : s.ctrl.busy.toNat = 0 := by rw [← (h.core hr).single, countP_isAsking_of_noWrites hquiet]
      exact Bool.toNat_eq_zero.mp hzero
  have hsame : loaded = s.ledger := h.read loaded hmem
  have hcore : Core ((s.ctrl.leave i).restored loaded) s.ledger := by
    rw [hsame]
    exact core_restored (h.settled hquiet) hrest hidle
  obtain ⟨activeId, he⟩ := (s.ctrl.leave i).restored_eq loaded
  rw [he] at hcore ⊢
  exact ⟨Or.inr hrest, fun _ => hcore, (fun hnot => by cases hnot), h.ids, fun _ => h.stored hquiet,
    fun _ hm => h.read _ (List.mem_of_mem_eraseIdx hm)⟩

/-- Which conversation is shown makes no difference. -/
theorem Inv.select (h : Inv s) (stashRoot activeId : Option Text) :
    Inv { s with ctrl := { s.ctrl with stashRoot := stashRoot, activeId := activeId } } where
  apart := h.apart
  core hr := have hc := h.core hr; ⟨hc.memory, hc.clean, hc.refs, hc.below, hc.single, hc.asked⟩
  empty hr := have he := h.empty hr; ⟨he.all, he.quiet, he.busy⟩
  ids := h.ids
  stored := h.stored
  read := h.read

/-- A `restore` is called. -/
theorem Inv.restore (h : Inv s) (hquiet : NoWrites s.ctrl.tasks) :
    Inv { s with ctrl := s.ctrl.suspend .loading } := by
  refine h.reading hquiet (hquiet.concat fun hwrite => hwrite) fun loaded hm => ?_
  rcases List.mem_append.mp hm with hm | hm
  · exact h.read loaded hm
  · cases List.mem_singleton.mp hm

theorem inv_start (p : Past) : Inv (start p) where
  apart := Or.inl fun _ ht => by cases ht
  core hr := by cases hr
  empty _ := ⟨rfl, (fun _ ht => by cases ht), rfl⟩
  ids := ⟨p.nodup, fun _ hc => Or.inl (List.mem_map_of_mem hc)⟩
  stored _ := rfl
  read _ hm := by cases hm

/-- What a step does. -/
theorem step_cases {a : Action} (h : s.step a = some s') : s.Fresh a ∧ ∃ c, s.ctrl.step a = some c ∧
    s' = { s with ctrl := c, ledger := s.record a, restored := s.restored || Action.restores a } := by
  unfold Session.step at h
  split_ifs at h with hfresh
  obtain ⟨c, hc, rfl⟩ := Option.map_eq_some_iff.mp h
  exact ⟨hfresh, c, hc, rfl⟩

/-- **The invariant is kept.** -/
theorem inv_step {a : Action} (h : Inv s) (hapart : Apart s a) (hs : s.step a = some s') : Inv s' := by
  obtain ⟨hfresh, c, hc, rfl⟩ := step_cases hs
  cases a with
  | restore =>
    cases hc
    simpa only [Session.record, Action.restores, Bool.or_false] using h.restore hapart
  | send query stashRoot micros millis =>
    cases hc
    simpa only [Action.restores, Bool.or_false] using h.send hapart.1 hapart.2 hfresh
  | deleteChat id =>
    cases hc
    simpa only [Session.record, Action.restores, Bool.or_false] using h.deleteChat hapart.1 hapart.2 id
  | newChat =>
    cases hc
    simpa only [Session.record, Action.restores, Bool.or_false] using h.select s.ctrl.stashRoot none
  | openChat id =>
    cases hc
    simpa only [Session.record, Action.restores, Bool.or_false] using h.select s.ctrl.stashRoot (some id)
  | setStash root =>
    cases hc
    obtain ⟨stashRoot, activeId, he⟩ := s.ctrl.setStash_eq root
    rw [he]
    simpa only [Session.record, Action.restores, Bool.or_false] using h.select stashRoot activeId
  | prefs i ok =>
    obtain ⟨t, ht, hgot⟩ := Option.bind_eq_some_iff.mp hc
    have hok : t = .saving → ok = true := fun he => hapart (ht.trans (congrArg some he))
    simpa only [Session.record, Action.restores, Bool.or_false] using h.prefs ht hok hgot
  | loaded i =>
    simp only [AskController.step] at hc
    split at hc
    · next loaded ht =>
      cases hc
      simpa only [Session.record, Action.restores, Bool.or_true] using h.loaded ht
    · cases hc
  | answered i a millis =>
    simp only [AskController.step] at hc
    split at hc
    · next ref id query ht =>
      cases hc
      have hrecord : s.record (.answered i a millis) =
          s.ledger.change id (answer (a.getD somethingWrong) millis query) := by
        simp only [Session.record, ht]
      rw [hrecord]
      simpa only [Action.restores, Bool.or_false] using h.answered ht
    · cases hc

end Steps

/-- When nothing is under way, memory and store are the ledger. -/
theorem Inv.complete {s : Session} (h : Inv s) (htasks : s.ctrl.tasks = []) (hr : s.restored = true) : Complete s := by
  have hcore := h.core hr
  constructor
  · rw [← hcore.memory]
    refine List.map_congr_left fun o ho => (persisted_of_settled ?_).symm
    refine (hcore.clean o ho).resolve_right ?_
    rintro ⟨id, q, hmem⟩
    rw [htasks] at hmem
    cases hmem
  · refine h.stored fun t ht => ?_
    rw [htasks] at ht
    cases ht

/-- **No conversation is lost**: when nothing is asked or deleted before a `restore` has finished or while one is under
way, and no save fails, then memory and store, when nothing is under way any more, hold the conversations that were
stored and those that were started, without those deleted, with all that was said. -/
theorem nothing_lost (p : Past) :
    ∀ s, Reach Session.step Apart (start p) s → s.ctrl.tasks = [] → s.restored = true → Complete s := by
  intro s hs htasks hr
  have hinv : Inv s := hs.inv (inv_start p) fun _ _ _ h hapart hstep => inv_step h hapart hstep
  exact hinv.complete htasks hr

/-- Nothing is stored. -/
def nothingStored : Past := ⟨.absent, List.nodup_nil⟩

/-- A question is asked when the list is restored, and another while a third conversation is deleted. -/
def asked : List Action :=
  [.setStash (some ['/']), .restore, .prefs 0 true, .loaded 0, .send ['a'] ['/'] 7 0, .answered 0 none 1, .newChat,
    .send ['b'] ['/'] 8 2, .prefs 0 true, .deleteChat (newId 7 1), .prefs 1 true, .answered 0 none 3, .prefs 0 true]

/-- Two conversations are started and the first is deleted: the second is there, with its answer. -/
theorem second_kept : ∃ s, run Session.step (start nothingStored) asked = some s ∧
    s.ledger = [⟨newId 8 2, ['/'], ['b'], 3, [.user ['b'], .assistant somethingWrong]⟩] ∧ Complete s := by
  have h : (run Session.step (start nothingStored) asked).map (fun s => (s.ctrl.tasks, s.restored, s.ledger)) =
      some ([], true, [⟨newId 8 2, ['/'], ['b'], 3, [.user ['b'], .assistant somethingWrong]⟩]) := by decide +kernel
  obtain ⟨s, hrun, hs⟩ := Option.map_eq_some_iff.mp h
  simp only [Prod.mk.injEq] at hs
  obtain ⟨htasks, hr, hledger⟩ := hs
  have hreach : Reach Session.step Apart (start nothingStored) s := Reach.of_run (by decide +kernel) hrun
  exact ⟨s, hrun, hledger, nothing_lost nothingStored s hreach htasks hr⟩

/-- A question is asked while the list is being restored. -/
def askedEarly : List Action :=
  [.setStash (some ['/']), .restore, .send ['a'] ['/'] 7 0, .prefs 0 true, .loaded 1, .answered 0 none 1, .prefs 0 true]

/-- **A conversation that is started while the list is being restored is lost**, though nothing fails. -/
theorem conversation_lost : ¬ ∀ (p : Past) (s : Session),
    Reach Session.step (fun _ a => ∀ i, a ≠ .prefs i false) (start p) s → s.ctrl.tasks = [] → s.restored = true →
      Complete s := by
  intro h
  have hlost : (run Session.step (start nothingStored) askedEarly).map
      (fun s => (s.ctrl.tasks, s.restored, s.ctrl.all, s.ledger.length)) = some ([], true, [], 1) := by decide +kernel
  obtain ⟨s, hrun, hs⟩ := Option.map_eq_some_iff.mp hlost
  simp only [Prod.mk.injEq] at hs
  obtain ⟨htasks, hr, hall, hledger⟩ := hs
  have hworks : Along Session.step (fun _ a => ∀ i, a ≠ .prefs i false) (start nothingStored) askedEarly :=
    along_of_forall (by simp [askedEarly]) _
  have hmemory : s.ctrl.all.map Prod.snd = s.ledger := (h nothingStored s (Reach.of_run hworks hrun) htasks hr).1
  rw [← hmemory, hall] at hledger
  cases hledger

end Notely.Desktop.AskHistory
