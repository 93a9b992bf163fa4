import Notely.Desktop.ClientPromises

/-! # A client that is disposed

A client makes one connection at a time, and has one handshake at a time (`Links`). Once it is being disposed, nothing
brings it back (`Ends`), but for a connection that was being made: it is not asked any more whether it is wanted.

* `links_step`: every action keeps to one connection.
* `ends_step`: an action keeps to the end, if a connection that is being made when the client is disposed fails, and
  does so before the notifiers are disposed.
* `inert`: a client so disposed is inert. -/

namespace Notely.Desktop.ClientDisposal

open Notely.Lib Notely.Lib.Lts Notely.Lib.Handles Notely.Lib.Strings Notely.Lib.Json Notely.Desktop.Dart
open Notely.Desktop.Protocol Notely.Desktop.EngineClient Notely.Desktop.ClientPromises

/-! ### One connection at a time -/

/-- The client has one connection at a time, and one handshake. -/
structure Links (c : Client) : Prop where
  kept : Kept c
  timer : c.reconnectTimer.Tidy
  waiting : c.reconnectTimer.live ≠ [] → c.connects = 0 ∧ c.socket = none
  connecting : c.connects ≠ 0 → c.connects = 1 ∧ c.socket = none ∧ c.handshakes = []
  asking : c.handshakes.length ≤ 1
  asked : ∀ id ∈ c.handshakes, id ∈ ids c.nextRequestId ∧ (id ∈ c.pending → c.socket.isSome)
  stopped : c.running = false → c.disposing = none → c.connects = 0 ∧ c.socket = none ∧ c.handshakes = []
  heard : ∀ n ∈ c.listened, c.socket = some n
  opened : ∀ n ∈ c.openSockets, c.socket = some n ∨ ∃ t ∈ c.teardowns, t.socket = some n

section Links
variable {c c' : Client} {a : Action}

theorem Links.idle (h : Links c) (hconnects : c.connects ≠ 0) : c.reconnectTimer.live = [] := by
  by_contra hlive
  exact hconnects (h.waiting hlive).1

theorem Links.alone (h : Links c) {n : ℕ} (hsocket : c.socket = some n) : c.connects = 0 := by
  by_contra hconnects
  simp [(h.connecting hconnects).2.1] at hsocket

/-- A handshake that is asked for an answer has a connection, or can go on. -/
theorem Links.unasked (h : Links c) (hready : ¬ c.Ready) (hsocket : c.socket = none) : c.handshakes = [] := by
  rw [List.eq_nil_iff_forall_not_mem]
  intro id hid
  obtain ⟨hsent, hwaits⟩ := h.asked id hid
  have hopen : id ∉ c.pending := fun hpending => by simpa [hsocket] using hwaits hpending
  refine hready ⟨id, hid, isCompleted_iff.mpr ?_⟩
  by_contra hdone
  exact hopen (h.kept.waits hsent hdone)

/-- Only the socket is listened to. -/
theorem Links.unheard (h : Links c) (hsocket : c.socket = none) : c.listened = [] := by
  rw [List.eq_nil_iff_forall_not_mem]
  intro n hn
  simpa [hsocket] using h.heard n hn

/-- A socket that is let go is not listened to, -/
theorem Links.unheard_filter (h : Links c) : c.listened.filter (fun n => c.socket ≠ some n) = [] := by
  rw [List.filter_eq_nil_iff]
  intro n hn
  simpa using h.heard n hn

/-- and is torn down. -/
theorem Links.torn (h : Links c) (disposes : Bool) {n : ℕ} (hn : n ∈ c.openSockets) :
    ∃ t ∈ c.teardowns ++ [⟨c.socket, disposes⟩], t.socket = some n := by
  rcases h.opened n hn with hsocket | ⟨t, ht, hsocket⟩
  · exact ⟨⟨c.socket, disposes⟩, List.mem_append_right _ (List.mem_singleton_self _), hsocket⟩
  · exact ⟨t, List.mem_append_left _ ht, hsocket⟩

/-- What is not open stays so, and what is torn down is known. -/
theorem opened_teardownSocketSync (h : Links c) (n : ℕ) (hn : n ∈ c.teardownSocketSync.openSockets) :
    ∃ t ∈ c.teardowns, t.socket = some n := by
  obtain ⟨hn, hne⟩ := List.mem_filter.mp hn
  exact (h.opened n hn).resolve_left (by simpa using hne)

theorem links_connect (h : Links c) (hkept : Kept c.connect)
    (hidle : c.running = true → c.socket = none → c.connects = 0 ∧ c.handshakes = []) : Links c.connect := by
  unfold Client.connect at hkept ⊢
  split_ifs at hkept ⊢ with hgo
  · exact h
  · simp only [Bool.or_eq_true, Bool.not_eq_true', not_or, Bool.not_eq_false, Bool.not_eq_true,
      Option.isSome_eq_false_iff, Option.isNone_iff_eq_none] at hgo
    obtain ⟨hrunning, hsocket⟩ := hgo
    obtain ⟨hconnects, hhandshakes⟩ := hidle hrunning hsocket
    have hlive := h.timer.live_cancel
    exact
      { kept := hkept
        timer := by simpa using Slot.tidy_of_idle (h := c.reconnectTimer.cancel.drop) hlive
        waiting := by simp [Slot.drop, hlive]
        connecting := by simp [hconnects, hsocket, hhandshakes]
        asking := by simp [hhandshakes]
        asked := by simp [hhandshakes]
        stopped := by simp [hrunning]
        heard := by simpa using h.heard
        opened := by simpa using h.opened }

theorem links_onDisconnected (h : Links c) (hconnects : c.connects = 0) (reason : Text) :
    Links (c.onDisconnected reason) := by
  have hlive := h.timer.live_cancel
  exact
    { kept := kept_onDisconnected h.kept reason
      timer := by
        rw [Client.onDisconnected_reconnectTimer]
        split_ifs
        · exact (Slot.one_take hlive).tidy
        · exact h.timer
      waiting := by simp [hconnects]
      connecting := by simp [hconnects]
      asking := by simpa using h.asking
      asked := by simpa using fun id hid => (h.asked id hid).1
      stopped := by simpa [hconnects] using fun hrunning hdisposing => (h.stopped hrunning hdisposing).2.2
      heard := by
        intro n hn
        simp only [Client.onDisconnected_frame, h.unheard_filter] at hn
        cases hn
      opened := by
        intro n hn
        simp only [Client.onDisconnected_frame] at hn ⊢
        exact Or.inr (opened_teardownSocketSync h n hn) }

theorem links_handshaken (h : Links c) {id : Text} (hid : id ∈ c.handshakes) (how : Completion) :
    Links ({ c with handshakes := c.handshakes.erase id }.handshaken how) := by
  have hnone : c.handshakes.erase id = [] := by
    have hlength := List.length_erase_of_mem hid
    have := h.asking
    exact List.length_eq_zero_iff.mp (by omega)
  have hconnects : c.connects = 0 := by
    by_contra hne
    simp [(h.connecting hne).2.2] at hid
  have herase : Links { c with handshakes := c.handshakes.erase id } := by
    rw [hnone]
    exact { h with
      connecting := fun hne => absurd hconnects hne
      asking := by simp
      asked := by simp
      stopped := fun hrunning hdisposing => ⟨hconnects, (h.stopped hrunning hdisposing).2.1, rfl⟩ }
  have hkept := kept_handshaken herase.kept how
  rcases Client.handshaken_cases { c with handshakes := c.handshakes.erase id } how with ⟨-, heq⟩ | ⟨-, heq | heq⟩
  · rw [heq] at hkept ⊢
    exact
      { kept := hkept
        timer := by simpa using h.timer
        waiting := by simp [hconnects]
        connecting := by simp [hconnects]
        asking := by simp [hnone]
        asked := by simp [hnone]
        stopped := by simp [hnone, hconnects]
        heard := by
          intro n hn
          simp only [Client.refuse_frame, Client.assign_frame, h.unheard_filter] at hn
          cases hn
        opened := by
          intro n hn
          simp only [Client.refuse_frame, Client.assign_frame] at hn ⊢
          exact Or.inr (h.torn false hn) }
  · rwa [heq]
  · rw [heq] at hkept ⊢
    exact
      { kept := hkept
        timer := by simpa using herase.timer
        waiting := by simpa using herase.waiting
        connecting := by simpa using herase.connecting
        asking := by simpa using herase.asking
        asked := by simpa using herase.asked
        stopped := by simpa using herase.stopped
        heard := by simpa using herase.heard
        opened := by simpa using herase.opened }

/-- A request is completed. -/
theorem links_complete (h : Links c) {id : Text} {how : Completion}
    (hkept : Kept ({ c with pending := c.pending.erase id }.complete id how)) :
    Links ({ c with pending := c.pending.erase id }.complete id how) := by
  refine { h with kept := hkept, asked := fun other hother => ?_ }
  obtain ⟨hsent, hwaits⟩ := h.asked other hother
  exact ⟨hsent, fun hmem => hwaits (List.mem_of_mem_erase hmem)⟩

theorem links_handleLine (h : Links c) (line : Option Value) : Links (c.handleLine line) := by
  have hkept := kept_handleLine h.kept line
  rcases handleLine_cases h.kept line with ⟨touched, -, heq⟩ | ⟨id, hid, how, -, heq⟩
  · rw [heq] at hkept ⊢
    exact { h with kept := hkept }
  · rw [heq] at hkept ⊢
    exact links_complete h hkept

theorem links_lines (lines : List (Option Value)) :
    ∀ {c : Client}, Links c → Links (lines.foldl Client.handleLine c) := by
  induction lines with
  | nil => exact fun h => h
  | cons line lines ih => exact fun h => ih (links_handleLine h line)

theorem links_start (h : Links c) (hdisposing : c.disposing = none) (hkept : Kept c.start) : Links c.start := by
  unfold Client.start at hkept ⊢
  split_ifs at hkept ⊢ with hrunning
  · exact h
  · obtain ⟨hconnects, hsocket, hhandshakes⟩ := h.stopped (by simpa using hrunning) hdisposing
    exact links_connect (c := { c with running := true }) { h with stopped := fun hno => by cases hno } hkept
      fun _ _ => ⟨hconnects, hhandshakes⟩

theorem links_send (h : Links c) (throws : Option Text) (hkept : Kept (c.send throws)) : Links (c.send throws) := by
  have hasked : ∀ id ∈ c.handshakes, id ∈ ids (c.nextRequestId + 1) := by
    intro id hid
    rw [ids_succ]
    exact List.mem_append_left _ (h.asked id hid).1
  rcases c.send_cases throws with heq | ⟨hsocket, heq | ⟨e, heq⟩⟩
  · rwa [heq]
  · rw [heq] at hkept ⊢
    exact { h with kept := hkept, asked := fun id hid => ⟨hasked id hid, fun _ => hsocket⟩ }
  · rw [heq] at hkept ⊢
    exact { h with kept := hkept, asked := fun id hid => ⟨hasked id hid, fun _ => hsocket⟩ }

theorem links_dispose (h : Links c) (hkept : Kept c.dispose) : Links c.dispose := by
  have hlive := h.timer.live_cancel
  have hlistened : c.dispose.listened = [] := h.unheard_filter
  exact
    { kept := hkept
      timer := Slot.tidy_of_idle (h := c.reconnectTimer.cancel.drop) hlive
      waiting := fun hne => absurd hlive hne
      connecting := fun hne => ⟨(h.connecting hne).1, rfl, (h.connecting hne).2.2⟩
      asking := h.asking
      asked := fun id hid => ⟨(h.asked id hid).1, fun hmem => absurd hmem List.not_mem_nil⟩
      stopped := fun _ hno => by cases hno
      heard := by simp [hlistened]
      opened := fun n hn => Or.inr (h.torn true hn) }

theorem links_connected (h : Links c) (hconnects : c.connects ≠ 0) (hkept : Kept c.connected) :
    Links c.connected := by
  obtain ⟨hone, hsocket, hhandshakes⟩ := h.connecting hconnects
  exact
    { kept := hkept
      timer := by simpa [Client.connected, Client.register] using h.timer
      waiting := by simpa [Client.connected, Client.register] using h.idle hconnects
      connecting := by simp [Client.connected, Client.register, hone]
      asking := by simp [Client.connected, Client.register, hhandshakes]
      asked := by simp [Client.connected, Client.register, hhandshakes, ids_succ]
      stopped := by
        intro hrunning hdisposing
        have hboth : c.running = false ∧ c.disposing = none := by
          simpa [Client.connected, Client.register] using And.intro hrunning hdisposing
        exact absurd (h.stopped hboth.1 hboth.2).1 hconnects
      heard := by simp [Client.connected, Client.register, h.unheard hsocket]
      opened := by
        intro n hn
        simp only [Client.connected, Client.register, Client.setState_frame, Client.assign_frame, List.mem_append,
          List.mem_singleton] at hn ⊢
        rcases hn with hn | rfl
        · exact Or.inr ((h.opened n hn).resolve_left (by simp [hsocket]))
        · exact Or.inl rfl }

theorem links_connectFailed (h : Links c) (hconnects : c.connects ≠ 0) (reason : Text) :
    Links ({ c with connects := c.connects - 1 }.onDisconnected reason) := by
  have hone := (h.connecting hconnects).1
  refine links_onDisconnected (c := { c with connects := c.connects - 1 }) ?_ (by simp [hone]) reason
  exact { h with
    waiting := fun hlive => absurd (h.idle hconnects) hlive
    connecting := fun hne => absurd (by simp [hone]) hne
    stopped := fun hrunning hdisposing => absurd (h.stopped hrunning hdisposing).1 hconnects }

theorem links_reconnect (h : Links c) (hready : ¬ c.Ready) {timer : ℕ} (hlive : timer ∈ c.reconnectTimer.live)
    (hkept : Kept (c.reconnect timer)) : Links (c.reconnect timer) := by
  obtain ⟨hconnects, hsocket⟩ := h.waiting (List.ne_nil_of_mem hlive)
  have hhandshakes := h.unasked hready hsocket
  have hfired : Links
      { c with reconnectTimer := { c.reconnectTimer with live := c.reconnectTimer.live.erase timer } } :=
    { h with
      timer := fun n hn => h.timer n (List.mem_of_mem_erase hn)
      waiting := fun _ => ⟨hconnects, hsocket⟩ }
  unfold Client.reconnect at hkept ⊢
  dsimp only at hkept ⊢
  split_ifs at hkept ⊢
  · exact links_connect hfired hkept fun _ _ => ⟨hconnects, hhandshakes⟩
  · exact hfired

theorem links_closed (h : Links c) {t : Teardown}
    (hkept : Kept ({ c with teardowns := c.teardowns.erase t }.closed t)) :
    Links ({ c with teardowns := c.teardowns.erase t }.closed t) := by
  have hopened : ∀ n ∈ c.openSockets.filter (fun n => t.socket ≠ some n),
      c.socket = some n ∨ ∃ u ∈ c.teardowns.erase t, u.socket = some n := by
    intro n hn
    obtain ⟨hn, hne⟩ := List.mem_filter.mp hn
    rcases h.opened n hn with hsocket | ⟨u, hu, hsocket⟩
    · exact Or.inl hsocket
    · refine Or.inr ⟨u, (List.mem_erase_of_ne ?_).mpr hu, hsocket⟩
      rintro rfl
      simp [hsocket] at hne
  unfold Client.closed at hkept ⊢
  dsimp only at hkept ⊢
  split_ifs at hkept ⊢
  · exact
      { kept := hkept
        timer := by simpa using h.timer
        waiting := by simpa using h.waiting
        connecting := by simpa using h.connecting
        asking := by simpa using h.asking
        asked := by simpa using h.asked
        stopped := fun _ hno => by cases hno
        heard := by simpa using h.heard
        opened := by simpa using hopened }
  · exact { h with kept := hkept, opened := hopened }

/-- **Every action keeps to one connection.** -/
theorem links_step (h : Links c) (hs : step c a = some c') : Links c' := by
  have hkept := kept_step h.kept hs
  cases moves_of_step hs with
  | start hdisposing => exact links_start h hdisposing hkept
  | send throws => exact links_send h throws hkept
  | dispose => exact links_dispose h hkept
  | handshaken _ hid => exact links_handshaken h hid _
  | connected _ hconnects => exact links_connected h hconnects hkept
  | connectFailed e _ hconnects => exact links_connectFailed h hconnects _
  | data lines => exact links_lines lines h
  | lost reason _ hlistened => exact links_onDisconnected h (h.alone (h.heard _ hlistened)) reason
  | timeout => exact links_complete h hkept
  | reconnect hready hlive => exact links_reconnect h hready hlive hkept
  | closed => exact links_closed h hkept
  | disposed => exact { h with kept := hkept, stopped := fun _ hno => by cases hno }

end Links

/-! ### The end -/

/-- Nothing of the client is suspended. -/
def Quiet (c : Client) : Prop := c.connects = 0 ∧ c.handshakes = [] ∧ c.teardowns = []

/-- **The client is inert**: it has touched nothing that is disposed or closed, and once it is disposed and nothing of
it is suspended, it has no open socket, and no action changes it any more. -/
structure Inert (c : Client) : Prop where
  untouched : c.touched = false
  closed : c.disposing = some .finished → Quiet c →
    c.openSockets = [] ∧ ∀ (a : Action) (c' : Client), step c a = some c' → c' = c

/-- A connection that is being made when the client is disposed fails, before the notifiers are disposed. -/
def Timely (c : Client) : Action → Prop
  | .connected => c.disposing = none
  | .connectFailed _ => c.disposing ≠ some .finished
  | _ => True

instance (c : Client) : DecidablePred (Timely c)
  | .connected => inferInstanceAs (Decidable (c.disposing = none))
  | .connectFailed _ => inferInstanceAs (Decidable (c.disposing ≠ some .finished))
  | .start | .send _ | .dispose | .handshaken _ | .data _ _ | .lost _ _ | .timeout _ | .reconnect _ | .closed _
  | .disposed => isTrue trivial

/-- Once the client is being disposed nothing brings it back. -/
structure Ends (c : Client) : Prop where
  untouched : c.touched = false
  tearing : c.teardowns.countP Teardown.disposes = if c.disposing = some .tearing then 1 else 0
  ended : c.disposing ≠ none → c.running = false ∧ c.reconnectTimer.live = [] ∧ c.socket = none ∧ c.pending = []
  finished : c.disposing = some .finished → c.handshakes = []

section Ends
variable {c c' : Client} {a : Action}

/-- Before `dispose` only the notifiers are to be looked at. -/
theorem ends_of_used (h : Ends c) (hdisposing : c.disposing = none) (htouched : c'.touched = c.touched)
    (hteardowns : c'.teardowns.countP Teardown.disposes = c.teardowns.countP Teardown.disposes)
    (hsame : c'.disposing = c.disposing) : Ends c' where
  untouched := htouched.trans h.untouched
  tearing := by rw [hteardowns, h.tearing, hsame]
  ended := fun hne => absurd (hsame.trans hdisposing) hne
  finished := fun hfinished => by simp [hsame, hdisposing] at hfinished

theorem Ends.used_of_live (h : Ends c) {n : ℕ} (hn : n ∈ c.reconnectTimer.live) : c.disposing = none := by
  by_contra hne
  simp [(h.ended hne).2.1] at hn

theorem Ends.used_of_socket (h : Ends c) (hsocket : c.socket ≠ none) : c.disposing = none := by
  by_contra hne
  exact hsocket (h.ended hne).2.2.1

theorem ends_handleLine (hkept : Kept c) (h : Ends c) (hdisposing : c.disposing = none) (line : Option Value) :
    Ends (c.handleLine line) ∧ (c.handleLine line).disposing = none := by
  rcases handleLine_cases hkept line with ⟨touched, htouched, heq⟩ | ⟨id, hid, how, -, heq⟩
  · rw [heq]
    exact ⟨ends_of_used h hdisposing (htouched hdisposing) rfl rfl, hdisposing⟩
  · rw [heq]
    exact ⟨ends_of_used h hdisposing rfl rfl rfl, hdisposing⟩

theorem ends_lines (lines : List (Option Value)) :
    ∀ {c : Client}, Kept c → Ends c → c.disposing = none → Ends (lines.foldl Client.handleLine c) := by
  induction lines with
  | nil => exact fun _ h _ => h
  | cons line lines ih =>
    intro c hkept h hdisposing
    obtain ⟨hends, hused⟩ := ends_handleLine hkept h hdisposing line
    exact ih (kept_handleLine hkept line) hends hused

theorem ends_onDisconnected (h : Ends c) (hfinished : c.disposing ≠ some .finished) (reason : Text) :
    Ends (c.onDisconnected reason) where
  untouched := (Client.touched_onDisconnected hfinished reason).trans h.untouched
  tearing := by simpa using h.tearing
  ended := by
    intro hne
    rw [(Client.onDisconnected_frame c reason).2.2.2.2.2.2.2.2.2] at hne
    obtain ⟨hrunning, hlive, -, -⟩ := h.ended hne
    rw [Client.onDisconnected_reconnectTimer, hrunning]
    simp [hrunning, hlive]
  finished := by simpa using fun hdisposing => absurd hdisposing hfinished

theorem ends_handshaken (h : Ends c) (hfinished : c.disposing ≠ some .finished) (how : Completion) :
    Ends (c.handshaken how) := by
  rcases c.handshaken_cases how with ⟨-, heq⟩ | ⟨-, heq | heq⟩
  · rw [heq]
    refine ⟨?_, ?_, fun hne => ?_, ?_⟩
    · rw [Client.touched_refuse (by simpa using hfinished), Client.touched_assign hfinished, h.untouched]
    · simpa using h.tearing
    · simp only [Client.refuse_frame, Client.assign_frame] at hne ⊢
      obtain ⟨-, hlive, -, hpending⟩ := h.ended hne
      exact ⟨trivial, hlive, trivial, hpending⟩
    · simpa using fun hdisposing => absurd hdisposing hfinished
  · rwa [heq]
  · rw [heq]
    refine ⟨(Client.touched_assign hfinished).trans h.untouched, ?_, ?_, ?_⟩
    · simpa using h.tearing
    · simpa using h.ended
    · simpa using h.finished

theorem ends_dispose (hl : Links c) (h : Ends c) (hdisposing : c.disposing = none) : Ends c.dispose := by
  refine ⟨h.untouched, ?_, fun _ => ⟨rfl, hl.timer.live_cancel, rfl, rfl⟩, fun hno => by cases hno⟩
  have htearing := h.tearing
  rw [hdisposing, if_neg (by simp)] at htearing
  simp [Client.dispose, Client.teardownSocket, Client.failPending, htearing]

/-- A socket is closed, and `dispose` ends if it has waited for that. -/
theorem ends_closed (h : Ends c) {t : Teardown} (ht : t ∈ c.teardowns) :
    Ends ({ c with teardowns := c.teardowns.erase t }.closed t) := by
  have htearing := h.tearing
  rw [(List.perm_cons_erase ht).countP_eq, List.countP_cons] at htearing
  unfold Client.closed
  dsimp only
  split_ifs with hdisposes
  · rw [if_pos hdisposes] at htearing
    have hdisposing : c.disposing = some .tearing := by
      by_contra hne
      simp [hne] at htearing
    rw [if_pos hdisposing] at htearing
    obtain ⟨hrunning, hlive, hsocket, hpending⟩ := h.ended (by simp [hdisposing])
    refine ⟨?_, ?_, fun _ => ?_, fun hno => by cases hno⟩
    · exact (Client.touched_setState (by simp [hdisposing]) _).trans h.untouched
    · simpa using htearing
    · exact ⟨by simpa using hrunning, by simpa using hlive, by simpa using hsocket, by simpa using hpending⟩
  · rw [if_neg hdisposes] at htearing
    exact ⟨h.untouched, htearing, h.ended, h.finished⟩

/-- The notifiers are disposed, when no handshake can go on. -/
theorem ends_disposed (hl : Links c) (h : Ends c) (hready : ¬ c.Ready) (hclosing : c.disposing = some .closing) :
    Ends { c with disposing := some .finished } := by
  obtain ⟨hrunning, hlive, hsocket, hpending⟩ := h.ended (by simp [hclosing])
  refine ⟨h.untouched, ?_, fun _ => ⟨hrunning, hlive, hsocket, hpending⟩, fun _ => hl.unasked hready hsocket⟩
  have htearing := h.tearing
  rwa [hclosing, if_neg (by simp)] at htearing

/-- **An action keeps to the end.** -/
theorem ends_step (hl : Links c) (h : Ends c) (hok : Timely c a) (hs : step c a = some c') : Ends c' := by
  cases moves_of_step hs with
  | start hdisposing =>
    unfold Client.start
    split_ifs
    · exact h
    · have htouched := Client.touched_connect (c := { c with running := true }) (by simp [hdisposing])
      exact ends_of_used h hdisposing htouched (by simp) (by simp)
  | send throws =>
    rcases c.send_cases throws with heq | ⟨hsocket, heq⟩
    · rwa [heq]
    · have hdisposing := h.used_of_socket (Option.isSome_iff_ne_none.mp hsocket)
      rcases heq with heq | ⟨e, heq⟩
      · exact ends_of_used h hdisposing (by rw [heq]; rfl) (by rw [heq]; rfl) (by rw [heq]; rfl)
      · exact ends_of_used h hdisposing (by rw [heq]; rfl) (by rw [heq]; rfl) (by rw [heq]; rfl)
  | dispose hdisposing => exact ends_dispose hl h hdisposing
  | @handshaken id _ _ hid =>
    have hfinished : c.disposing ≠ some .finished := by
      intro hfinished
      simp [h.finished hfinished] at hid
    refine ends_handshaken (c := { c with handshakes := c.handshakes.erase id }) ?_ hfinished _
    exact { h with finished := fun hno => absurd hno hfinished }
  | connected =>
    have hdisposing : c.disposing = none := hok
    exact ends_of_used h hdisposing (Client.touched_connected (by simp [hdisposing]))
      (by simp [Client.connected, Client.register]) (by simp [Client.connected, Client.register])
  | connectFailed e =>
    have hfinished : c.disposing ≠ some .finished := hok
    exact ends_onDisconnected (c := { c with connects := c.connects - 1 })
      ⟨h.untouched, h.tearing, h.ended, h.finished⟩ hfinished _
  | data lines _ hlistened =>
    have hdisposing := h.used_of_socket fun hnone => by simpa [hnone] using hl.heard _ hlistened
    exact ends_lines lines hl.kept h hdisposing
  | lost reason _ hlistened =>
    have hdisposing := h.used_of_socket fun hnone => by simpa [hnone] using hl.heard _ hlistened
    exact ends_onDisconnected h (by simp [hdisposing]) reason
  | timeout =>
    refine { h with ended := fun hne => ?_ }
    obtain ⟨hrunning, hlive, hsocket, hpending⟩ := h.ended hne
    exact ⟨hrunning, hlive, hsocket, by simp [Client.complete, hpending]⟩
  | @reconnect timer _ hlive =>
    have hdisposing := h.used_of_live hlive
    unfold Client.reconnect
    dsimp only
    split_ifs
    · exact ends_of_used h hdisposing (Client.touched_connect (by simp [hdisposing])) (by simp) (by simp)
    · exact ends_of_used h hdisposing rfl rfl rfl
  | closed _ ht => exact ends_closed h ht
  | disposed hready hclosing => exact ends_disposed hl h hready hclosing

end Ends

/-! ### Runs -/

section Runs
variable {c : Client}

theorem inert_of_ends (hl : Links c) (h : Ends c) : Inert c := by
  refine ⟨h.untouched, fun hfinished ⟨hconnects, hhandshakes, hteardowns⟩ => ?_⟩
  obtain ⟨hrunning, hlive, hsocket, hpending⟩ := h.ended (by simp [hfinished])
  have hlistened := hl.unheard hsocket
  refine ⟨?_, fun a c' hs => ?_⟩
  · rw [List.eq_nil_iff_forall_not_mem]
    intro n hn
    rcases hl.opened n hn with hn | ⟨t, ht, -⟩
    · simp [hsocket] at hn
    · simp [hteardowns] at ht
  · cases moves_of_step hs with
    | send throws => simp [Client.send, hsocket]
    | start hdisposing | dispose hdisposing => simp [hfinished] at hdisposing
    | handshaken _ hid => simp [hhandshakes] at hid
    | connected _ hne | connectFailed _ _ hne => exact absurd hconnects hne
    | data _ _ hmem | lost _ _ hmem => simp [hlistened] at hmem
    | timeout _ hid hopen =>
      have hwaits := hl.kept.waits (mem_ids.mpr hid) fun hdone => by simp [isCompleted_iff.mpr hdone] at hopen
      simp [hpending] at hwaits
    | reconnect _ hmem => simp [hlive] at hmem
    | closed _ ht => simp [hteardowns] at ht
    | disposed _ hclosing => simp [hfinished] at hclosing

/-- A client that has done nothing yet. -/
theorem links_init : Links {} where
  kept := live_init.kept
  timer := Slot.tidy_of_idle rfl
  waiting := fun h => absurd rfl h
  connecting := fun h => absurd rfl h
  asking := Nat.zero_le 1
  asked := fun _ h => absurd h List.not_mem_nil
  stopped := fun _ _ => ⟨rfl, rfl, rfl⟩
  heard := fun _ h => absurd h List.not_mem_nil
  opened := fun _ h => absurd h List.not_mem_nil

theorem ends_init : Ends {} where
  untouched := rfl
  tearing := rfl
  ended := fun h => absurd rfl h
  finished := fun h => by cases h

/-- **A client is inert, if a connection that is being made when it is disposed fails, before the notifiers are
disposed.** -/
theorem inert (h : Reach step Timely {} c) : Inert c := by
  have hends : Links c ∧ Ends c :=
    Reach.inv (I := fun c => Links c ∧ Ends c) h ⟨links_init, ends_init⟩
      fun _ _ _ h hok hs => ⟨links_step h.1 hs, ends_step h.1 h.2 hok hs⟩
  exact inert_of_ends hends.1 hends.2

end Runs

/-- A client that is connected is disposed. -/
def disposal : List Action := [.start, .connected, .dispose, .handshaken (digits 0), .closed ⟨some 0, true⟩, .disposed]

theorem inert_disposal : ∃ c, run step {} disposal = some c ∧ c.disposing = some .finished ∧ Quiet c ∧ Inert c :=
  ⟨_, rfl, rfl, ⟨rfl, rfl, rfl⟩, inert (.of_run (by decide : Along step Timely {} disposal) rfl)⟩

/-- A client is disposed while it connects; the connection is made, and gets no answer. -/
def lateConnection : List Action :=
  [.start, .dispose, .closed ⟨none, true⟩, .disposed, .connected, .timeout 0, .handshaken (digits 0)]

/-- The connection stays open, and disposed notifiers are assigned. -/
theorem not_inert :
    (∃ c, run step {} lateConnection = some c ∧ c.disposing = some .finished ∧ Quiet c ∧ c.openSockets = [0] ∧
      c.touched = true) ∧
    ¬ ∀ c, Reach step (fun _ _ => True) {} c → Inert c := by
  refine ⟨⟨_, rfl, rfl, ⟨rfl, rfl, rfl⟩, rfl, rfl⟩, fun h => ?_⟩
  have hrun : run step {} lateConnection = some ((run step {} lateConnection).getD {}) := rfl
  exact absurd (h _ (.of_run (along_of_forall (fun _ _ _ => trivial) _) hrun)).untouched (by decide)

end Notely.Desktop.ClientDisposal
