import Notely.Desktop.EngineClient

/-! # Requests are resolved

Every request that was given an id waits or is completed, and is not completed twice, with no response but its own
(`Books`). Where the client has left a live connection none should wait.

* `kept_step`: every action keeps the books.
* `live_step`: requests wait only while there is a socket, if a handshake finds an engine of another version only when
  no other request waits, and no connection is made once the client is being disposed.
* `resolved_iff`: the requests are resolved all along a run exactly if its actions are so. -/

namespace Notely.Desktop.ClientPromises

open Notely.Lib Notely.Lib.Lts Notely.Lib.Handles Notely.Lib.Strings Notely.Lib.Json Notely.Desktop.Dart
open Notely.Desktop.Protocol Notely.Desktop.EngineClient

/-! ### What is promised -/

/-- A response came on a line with the id of the request. -/
def Own (id : Text) : Completion → Prop
  | .response line r =>
    ∃ envelope, line = .obj envelope ∧ index envelope "request_id" = .str id ∧ Response.fromJson envelope = .ok r
  | _ => True

/-- The ids of the first requests. -/
def ids (n : ℕ) : List Text := (List.range n).map digits

/-- The client has left a live connection. -/
def Left (c : Client) : Prop := c.state = .disconnected ∨ c.state = .incompatible ∨ c.disposing.isSome

/-- **The requests are resolved**, once and by their own answers. -/
structure Resolved (c : Client) : Prop where
  once : (c.completed.map Prod.fst).Nodup
  own : ∀ row ∈ c.completed, Own row.1 row.2
  settled : Left c → ∀ id ∈ ids c.nextRequestId, c.isCompleted id = true

/-- A handshake finds an engine of another version only when no other request waits, and a connection is made only
before the client is disposed. -/
def Clean (c : Client) : Action → Prop
  | .handshaken id => (Table.get id c.completed).any Client.refuses = true → c.pending = []
  | .connected => c.disposing = none
  | _ => True

instance (c : Client) : DecidablePred (Clean c)
  | .handshaken id =>
    inferInstanceAs (Decidable ((Table.get id c.completed).any Client.refuses = true → c.pending = []))
  | .connected => inferInstanceAs (Decidable (c.disposing = none))
  | .start | .send _ | .dispose | .connectFailed _ | .data _ _ | .lost _ _ | .timeout _ | .reconnect _ | .closed _
  | .disposed => isTrue trivial

/-! ### The books -/

/-- Every request given an id waits or is completed, and not both. -/
structure Books (pending : List Text) (completed : List (Text × Completion)) (next : ℕ) : Prop where
  tally : (pending ++ completed.map Prod.fst).Perm (ids next)
  own : ∀ row ∈ completed, Own row.1 row.2

section Books
variable {pending : List Text} {completed : List (Text × Completion)} {next : ℕ} {id : Text} {how : Completion}

theorem ids_succ (n : ℕ) : ids (n + 1) = ids n ++ [digits n] := by simp [ids, List.range_succ]

theorem nodup_ids (n : ℕ) : (ids n).Nodup := List.nodup_range.map digits_injective

theorem mem_ids {n : ℕ} : digits n ∈ ids next ↔ n < next := by
  simp [ids, digits_injective.eq_iff]

theorem own_snoc (h : ∀ row ∈ completed, Own row.1 row.2) (ho : Own id how) :
    ∀ row ∈ completed ++ [(id, how)], Own row.1 row.2 := by
  intro row hrow
  rcases List.mem_append.mp hrow with hrow | hrow
  · exact h row hrow
  · obtain rfl := List.mem_singleton.mp hrow
    exact ho

namespace Books
variable (h : Books pending completed next)
include h

theorem nodup : (pending ++ completed.map Prod.fst).Nodup := h.tally.nodup_iff.mpr (nodup_ids next)

/-- What waits is not completed. -/
theorem apart (hid : id ∈ pending) : id ∉ completed.map Prod.fst :=
  fun hmem => List.disjoint_of_nodup_append h.nodup hid hmem

/-- What was sent and is not completed waits. -/
theorem waits (hid : id ∈ ids next) (hnot : id ∉ completed.map Prod.fst) : id ∈ pending :=
  (List.mem_append.mp (h.tally.mem_iff.mpr hid)).resolve_right hnot

/-- A request is sent. -/
theorem register : Books (pending ++ [digits next]) completed (next + 1) := by
  refine ⟨?_, h.own⟩
  rw [ids_succ, List.append_assoc]
  have hswap : ([digits next] ++ completed.map Prod.fst).Perm (completed.map Prod.fst ++ [digits next]) :=
    List.perm_append_comm
  have hback := hswap.append_left pending
  rw [← List.append_assoc pending (completed.map Prod.fst)] at hback
  exact hback.trans (h.tally.append_right _)

/-- A request is completed as soon as it has its id. -/
theorem fail (ho : Own (digits next) how) : Books pending (completed ++ [(digits next, how)]) (next + 1) := by
  refine ⟨?_, own_snoc h.own ho⟩
  rw [ids_succ, List.map_append, ← List.append_assoc]
  exact h.tally.append_right _

/-- A request that waits is completed. -/
theorem complete (hid : id ∈ pending) (ho : Own id how) :
    Books (pending.erase id) (completed ++ [(id, how)]) next := by
  refine ⟨?_, own_snoc h.own ho⟩
  have hfront : (id :: pending.erase id).Perm pending := (List.perm_cons_erase hid).symm
  have hback : (pending.erase id ++ (completed.map Prod.fst ++ [id])).Perm
      (id :: pending.erase id ++ completed.map Prod.fst) := by
    rw [← List.append_assoc]
    exact List.perm_append_singleton _ _
  rw [List.map_append]
  exact hback.trans ((hfront.append_right _).trans h.tally)

/-- All that waits is completed. -/
theorem failAll (message : Text) :
    Books [] (completed ++ pending.map fun id => (id, Completion.unavailable message)) next := by
  refine ⟨?_, fun row hrow => ?_⟩
  · have hkeys : (pending.map fun id => (id, Completion.unavailable message)).map Prod.fst = pending := by
      rw [List.map_map]
      exact List.map_id _
    rw [List.nil_append, List.map_append, hkeys]
    exact List.perm_append_comm.trans h.tally
  · rcases List.mem_append.mp hrow with hrow | hrow
    · exact h.own row hrow
    · obtain ⟨id, -, rfl⟩ := List.mem_map.mp hrow
      trivial

end Books

end Books

/-! ### What the methods do to the books -/

/-- The books of a client. -/
def Kept (c : Client) : Prop := Books c.pending c.completed c.nextRequestId

section Kept
variable {c : Client} {id : Text}

theorem isCompleted_iff : c.isCompleted id = true ↔ id ∈ c.completed.map Prod.fst := Table.isSome_get

/-- A line ends the wait of at most one request, which it names. -/
theorem handled (pending : List Text) (v : Value) :
    (∃ envelope, v = .obj envelope ∧ ∃ id ∈ pending, index envelope "request_id" = .str id ∧
      ((∃ r, Response.fromJson envelope = .ok r ∧
          Protocol.handleLine pending v = (.completed id r, pending.erase id)) ∨
        ∃ failure, Protocol.handleLine pending v = (.failed id failure, pending.erase id))) ∨
      ∃ other, (∀ id r, other ≠ .completed id r) ∧ (∀ id failure, other ≠ .failed id failure) ∧
        Protocol.handleLine pending v = (other, pending) := by
  have hother : ∀ {other : Handled}, (∀ id r, other ≠ .completed id r) → (∀ id failure, other ≠ .failed id failure) →
      ∃ o, (∀ id r, o ≠ .completed id r) ∧ (∀ id failure, o ≠ .failed id failure) ∧
        ((other, pending) : Handled × List Text) = (o, pending) := fun h1 h2 => ⟨_, h1, h2, rfl⟩
  fun_cases Protocol.handleLine pending v with
  | case1 | case2 | case5 | case6 | case7 => exact Or.inr (hother (by simp) (by simp))
  | case3 envelope id hid hwaits r hr =>
    exact Or.inl ⟨envelope, rfl, id, List.contains_iff_mem.mp hwaits, hid, Or.inl ⟨r, hr, rfl⟩⟩
  | case4 envelope id hid hwaits failure =>
    exact Or.inl ⟨envelope, rfl, id, List.contains_iff_mem.mp hwaits, hid, Or.inr ⟨failure, rfl⟩⟩

/-- What a line leads to: at most the completion of one request that waits, by its own response. -/
theorem handleLine_cases (h : Kept c) (line : Option Value) :
    (∃ touched, (c.disposing = none → touched = c.touched) ∧ c.handleLine line = { c with touched := touched }) ∨
      ∃ id ∈ c.pending, ∃ how, Own id how ∧
        c.handleLine line = { c with pending := c.pending.erase id }.complete id how := by
  have hopen : ∀ {id : Text}, id ∈ c.pending → c.isCompleted id = false := fun hid =>
    Bool.eq_false_iff.mpr fun hdone => h.apart hid (isCompleted_iff.mp hdone)
  have hassign : c.disposing = none → (c.touched || decide (c.disposing = some .finished)) = c.touched := by
    intro hdisposing
    simp [hdisposing]
  have hadd : c.disposing = none →
      (c.touched || decide (c.disposing = some .closing ∨ c.disposing = some .finished)) = c.touched := by
    intro hdisposing
    simp [hdisposing]
  cases line with
  | none => exact Or.inl ⟨_, hassign, rfl⟩
  | some v =>
    unfold Client.handleLine
    rcases handled c.pending v with ⟨envelope, rfl, id, hmem, hid, ⟨r, hr, heq⟩ | ⟨failure, heq⟩⟩ |
        ⟨other, hcompleted, hfailed, heq⟩
    · refine Or.inr ⟨id, hmem, .response (.obj envelope) r, ⟨envelope, rfl, hid, hr⟩, ?_⟩
      simp only [heq, hopen hmem, Bool.false_eq_true, if_false]
    · refine Or.inr ⟨id, hmem, .undecodable failure, trivial, ?_⟩
      simp only [heq, hopen hmem, Bool.false_eq_true, if_false]
    · simp only [heq]
      cases other with
      | completed id r => exact absurd rfl (hcompleted id r)
      | failed id failure => exact absurd rfl (hfailed id failure)
      | event e => exact Or.inl ⟨_, hadd, rfl⟩
      | ignored => exact Or.inl ⟨_, fun _ => rfl, rfl⟩
      | _ => exact Or.inl ⟨_, hassign, rfl⟩

theorem kept_register (h : Kept c) : Kept c.register := Books.register h

theorem kept_failPending (h : Kept c) (message : Text) : Kept (c.failPending message) := by
  have hall : (c.pending.filter fun id => ! c.isCompleted id) = c.pending := by
    rw [List.filter_eq_self]
    intro id hid
    rw [Bool.not_eq_true', Bool.eq_false_iff, ne_eq, isCompleted_iff]
    exact h.apart hid
  have hbooks := Books.failAll h message
  unfold Kept Client.failPending
  rwa [hall]

theorem kept_handleLine (h : Kept c) (line : Option Value) : Kept (c.handleLine line) := by
  rcases handleLine_cases h line with ⟨touched, -, heq⟩ | ⟨id, hid, how, hown, heq⟩
  · rw [heq]
    exact h
  · rw [heq]
    exact Books.complete h hid hown

theorem kept_lines (lines : List (Option Value)) : ∀ {c : Client}, Kept c → Kept (lines.foldl Client.handleLine c) := by
  induction lines with
  | nil => exact fun h => h
  | cons line lines ih => exact fun h => ih (kept_handleLine h line)

theorem kept_onDisconnected (h : Kept c) (reason : Text) : Kept (c.onDisconnected reason) := by
  have hfail : Kept (c.assign.failPending reason) := kept_failPending h reason
  unfold Client.onDisconnected
  dsimp only
  split_ifs
  · simpa [Client.teardownSocketSync, Kept] using hfail
  · simpa [Client.teardownSocketSync, Kept] using hfail

theorem kept_handshaken (h : Kept c) (how : Completion) : Kept (c.handshaken how) := by
  rcases c.handshaken_cases how with ⟨-, heq⟩ | ⟨-, heq | heq⟩
  · rw [heq]
    simpa [Kept] using h
  · rwa [heq]
  · rw [heq]
    simpa [Kept] using h

/-- **Every action keeps the books.** -/
theorem kept_step {a : Action} {c' : Client} (h : Kept c) (hs : step c a = some c') : Kept c' := by
  cases moves_of_step hs with
  | start =>
    unfold Client.start
    split_ifs
    · exact h
    · simpa [Kept] using h
  | send throws =>
    rcases c.send_cases throws with heq | ⟨-, heq | ⟨e, heq⟩⟩
    · rwa [heq]
    · rw [heq]
      exact kept_register h
    · rw [heq]
      exact Books.fail h trivial
  | dispose =>
    exact kept_failPending (c := { c with running := false, reconnectTimer := c.reconnectTimer.cancel.drop }) h _
  | @handshaken id how => exact kept_handshaken (c := { c with handshakes := c.handshakes.erase id }) h how
  | connected =>
    unfold Client.connected
    simpa [Client.register, Kept] using Books.register h
  | connectFailed => exact kept_onDisconnected (c := { c with connects := c.connects - 1 }) h _
  | data lines => exact kept_lines lines h
  | lost reason => exact kept_onDisconnected h reason
  | @timeout n _ hid hopen =>
    have hnot : digits n ∉ c.completed.map Prod.fst := by
      rw [← isCompleted_iff, hopen]
      exact Bool.false_ne_true
    exact Books.complete h (h.waits (mem_ids.mpr hid) hnot) trivial
  | reconnect =>
    unfold Client.reconnect
    dsimp only
    split_ifs
    · simpa [Kept] using h
    · exact h
  | closed =>
    unfold Client.closed
    dsimp only
    split_ifs
    · simpa [Kept] using h
    · exact h
  | disposed => exact h

end Kept

/-! ### Requests wait while there is a socket -/

/-- Requests wait only while there is a socket, and there is one only while the client is connected and in use. -/
structure Live (c : Client) : Prop where
  kept : Kept c
  held : c.pending ≠ [] → c.socket.isSome
  use : c.socket.isSome → c.state = .connected ∧ c.disposing = none
  tearing : ∀ t ∈ c.teardowns, t.disposes = true → c.disposing.isSome

section Live
variable {c c' : Client} {a : Action}

/-- Without a socket, nothing waits. -/
theorem Live.idle (h : Live c) (hsocket : c.socket = none) : c.pending = [] := by
  by_contra hpending
  simpa [hsocket] using h.held hpending

/-- A client whose requests are gone needs no socket. -/
theorem live_of_idle (hkept : Kept c) (hpending : c.pending = []) (hsocket : c.socket = none)
    (htearing : ∀ t ∈ c.teardowns, t.disposes = true → c.disposing.isSome) : Live c :=
  ⟨hkept, by simp [hpending], by simp [hsocket], htearing⟩

theorem live_onDisconnected (h : Live c) (reason : Text) : Live (c.onDisconnected reason) :=
  live_of_idle (kept_onDisconnected h.kept reason) (by simp) (by simp) (by simpa using h.tearing)

theorem live_connect (h : Live c) (hsocket : c.socket = none) : Live c.connect :=
  live_of_idle (by simpa [Kept] using h.kept) (by simpa using h.idle hsocket) (by simpa using hsocket)
    (by simpa using h.tearing)

theorem live_handshaken {how : Completion} (h : Live c) (hclean : Client.refuses how = true → c.pending = []) :
    Live (c.handshaken how) := by
  have hkept := kept_handshaken h.kept how
  rcases c.handshaken_cases how with ⟨hrefuses, heq⟩ | ⟨-, heq | heq⟩
  · rw [heq] at hkept ⊢
    refine live_of_idle hkept (by simpa using hclean hrefuses) (by simp) fun t ht hdisposes => ?_
    simp only [Client.refuse_frame, Client.assign_frame, List.mem_append, List.mem_singleton] at ht ⊢
    rcases ht with ht | rfl
    · exact h.tearing t ht hdisposes
    · cases hdisposes
  · rwa [heq]
  · rw [heq] at hkept ⊢
    exact ⟨hkept, by simpa using h.held, by simpa using h.use, by simpa using h.tearing⟩

theorem live_handleLine (h : Live c) (line : Option Value) : Live (c.handleLine line) := by
  have hkept := kept_handleLine h.kept line
  rcases handleLine_cases h.kept line with ⟨touched, -, heq⟩ | ⟨id, hid, how, -, heq⟩
  · rw [heq] at hkept ⊢
    exact ⟨hkept, h.held, h.use, h.tearing⟩
  · rw [heq] at hkept ⊢
    exact ⟨hkept, fun _ => h.held (List.ne_nil_of_mem hid), h.use, h.tearing⟩

theorem live_lines (lines : List (Option Value)) : ∀ {c : Client}, Live c → Live (lines.foldl Client.handleLine c) := by
  induction lines with
  | nil => exact fun h => h
  | cons line lines ih => exact fun h => ih (live_handleLine h line)

/-- **Requests wait only while there is a socket.** -/
theorem live_step (h : Live c) (hclean : Clean c a) (hs : step c a = some c') : Live c' := by
  have hkept := kept_step h.kept hs
  cases moves_of_step hs with
  | start =>
    unfold Client.start
    split_ifs
    · exact h
    · by_cases hsocket : c.socket = none
      · exact live_connect (c := { c with running := true }) ⟨h.kept, h.held, h.use, h.tearing⟩ hsocket
      · unfold Client.connect
        rw [if_pos (by simp [Option.isSome_iff_ne_none.mpr hsocket])]
        exact ⟨h.kept, h.held, h.use, h.tearing⟩
  | send throws =>
    rcases c.send_cases throws with heq | ⟨hsocket, heq | ⟨e, heq⟩⟩
    · rwa [heq]
    · rw [heq] at hkept ⊢
      exact ⟨hkept, fun _ => hsocket, h.use, h.tearing⟩
    · rw [heq] at hkept ⊢
      exact ⟨hkept, fun _ => hsocket, h.use, h.tearing⟩
  | dispose => exact live_of_idle hkept rfl rfl (fun _ _ _ => rfl)
  | @handshaken id how hhow hid =>
    refine live_handshaken (c := { c with handshakes := c.handshakes.erase id }) ⟨h.kept, h.held, h.use, h.tearing⟩ ?_
    intro hrefuses
    exact hclean (by rw [hhow]; exact hrefuses)
  | connected =>
    have hdisposing : c.disposing = none := hclean
    refine ⟨hkept, fun _ => ?_, fun _ => ?_, ?_⟩
    · simp [Client.connected, Client.register]
    · simp [Client.connected, Client.register, hdisposing]
    · simpa [Client.connected, Client.register] using h.tearing
  | connectFailed =>
    exact live_onDisconnected (c := { c with connects := c.connects - 1 }) ⟨h.kept, h.held, h.use, h.tearing⟩ _
  | data lines => exact live_lines lines h
  | lost reason => exact live_onDisconnected h reason
  | timeout _ hid hopen =>
    refine ⟨hkept, fun hpending => h.held ?_, h.use, h.tearing⟩
    intro hnil
    exact hpending (by simp [Client.complete, hnil])
  | reconnect =>
    unfold Client.reconnect at hkept ⊢
    dsimp only at hkept ⊢
    split_ifs at hkept ⊢ with hrunning
    · rw [Bool.and_eq_true, Option.isNone_iff_eq_none] at hrunning
      exact live_connect
        (c := { c with reconnectTimer := { c.reconnectTimer with live := c.reconnectTimer.live.erase _ } })
        ⟨h.kept, h.held, h.use, h.tearing⟩ hrunning.2
    · exact ⟨h.kept, h.held, h.use, h.tearing⟩
  | @closed t _ ht =>
    unfold Client.closed at hkept ⊢
    dsimp only at hkept ⊢
    split_ifs at hkept ⊢ with hdisposes
    · have hsocket : c.socket = none := by
        by_contra hsome
        have := h.tearing t ht hdisposes
        simp [(h.use (Option.isSome_iff_ne_none.mpr hsome)).2] at this
      refine live_of_idle hkept (by simpa using h.idle hsocket) (by simpa using hsocket) fun _ _ _ => rfl
    · exact ⟨h.kept, h.held, h.use, fun u hu => h.tearing u (List.mem_of_mem_erase hu)⟩
  | disposed _ hclosing =>
    have hsocket : c.socket = none := by
      by_contra hsome
      have := (h.use (Option.isSome_iff_ne_none.mpr hsome)).2
      simp [hclosing] at this
    exact live_of_idle hkept (h.idle hsocket) hsocket fun _ _ _ => rfl

end Live

/-! ### Runs -/

section Runs
variable {c c' : Client} {a : Action}

theorem resolved_of_live (h : Live c) : Resolved c := by
  refine ⟨(List.nodup_append.mp h.kept.nodup).2.1, h.kept.own, fun hleft id hid => ?_⟩
  have hsocket : c.socket = none := by
    by_contra hsome
    obtain ⟨hstate, hdisposing⟩ := h.use (Option.isSome_iff_ne_none.mpr hsome)
    simp [Left, hstate, hdisposing] at hleft
  have hidle := h.idle hsocket
  by_contra hopen
  have hwaits := h.kept.waits hid fun hdone => hopen (isCompleted_iff.mpr hdone)
  rw [hidle] at hwaits
  exact List.not_mem_nil hwaits

/-- A client that has left a live connection with a request that waits has not resolved it. -/
theorem not_resolved_of_waits (hkept : Kept c) (hleft : Left c) (hpending : c.pending ≠ []) : ¬ Resolved c := by
  intro h
  obtain ⟨id, hid⟩ := List.exists_mem_of_ne_nil _ hpending
  have hsent : id ∈ ids c.nextRequestId := hkept.tally.mem_iff.mp (List.mem_append_left _ hid)
  exact hkept.apart hid (isCompleted_iff.mp (h.settled hleft id hsent))

theorem not_resolved_handshaken {how : Completion} (hkept : Kept (c.handshaken how)) (hpending : c.pending ≠ [])
    (hrefuses : Client.refuses how = true) : ¬ Resolved (c.handshaken how) := by
  obtain ⟨-, heq⟩ := (c.handshaken_cases how).resolve_right fun h => by simp [h.1] at hrefuses
  rw [heq] at hkept ⊢
  exact not_resolved_of_waits hkept (Or.inr (Or.inl (by simp))) (by simpa using hpending)

theorem not_resolved_step (h : Live c) (hclean : ¬ Clean c a) (hs : step c a = some c') : ¬ Resolved c' := by
  have hkept := kept_step h.kept hs
  cases moves_of_step hs with
  | handshaken hhow hid =>
    unfold Clean at hclean
    rw [Classical.not_imp, hhow] at hclean
    exact not_resolved_handshaken hkept hclean.2 hclean.1
  | connected =>
    have hdisposing : ¬ c.disposing = none := hclean
    refine not_resolved_of_waits hkept (Or.inr (Or.inr ?_)) ?_
    · rw [Option.isSome_iff_ne_none]
      simpa [Client.connected, Client.register] using hdisposing
    · simp [Client.connected, Client.register]
  | _ => exact absurd trivial hclean

theorem live_init : Live {} :=
  live_of_idle ⟨by simp [ids], by simp⟩ rfl rfl (by simp)

/-- **The requests are resolved all along a run exactly if a handshake finds an engine of another version only when
no other request waits, and no connection is made once the client is being disposed.** -/
theorem resolved_iff {as : List Action} {c : Client} (hr : run step {} as = some c) :
    Always step Resolved {} as ↔ Along step Clean {} as :=
  always_iff_along (fun _ => resolved_of_live) (fun _ _ _ => live_step) (fun _ _ _ => not_resolved_step) live_init hr

end Runs

/-- The reply of an engine of version 2 to the first request. -/
def healthOfAnother : Value :=
  .obj [("request_id", .str (digits 0)), ("type", .str "Health".toList), ("data", .obj
    [("protocol_version", .int 2), ("engine_ok", .bool true), ("llm_ok", .bool true), ("model", .str []),
      ("asr_provider", .str [])])]

/-- The client connects, sends a request, and hears of the version of the engine. -/
def anotherVersion : List Action :=
  [.start, .connected, .send none, .data 0 [some healthOfAnother], .handshaken (digits 0)]

/-- The handshake gets no answer, and the connection is lost while a request waits. -/
theorem resolved_lost : Always step Resolved {}
    [.start, .connected, .send none, .timeout 0, .handshaken (digits 0), .lost 0 []] :=
  (resolved_iff (c := _) rfl).mpr (by decide)

/-- The client finds an engine of another version, and a request waits on. -/
theorem not_resolved :
    (∃ c, run step {} anotherVersion = some c ∧ c.state = .incompatible ∧ c.pending = [digits 1]) ∧
      ¬ Always step Resolved {} anotherVersion := by
  refine ⟨⟨_, rfl, rfl, rfl⟩, fun h => ?_⟩
  have hsettled := (h.last rfl).settled (Or.inr (Or.inl rfl)) (digits 1) (mem_ids.mpr Nat.one_lt_two)
  exact absurd hsettled (by decide)

end Notely.Desktop.ClientPromises
