import Notely.Desktop.Protocol
import Notely.Lib.Handles
import Notely.Lib.Lts

/-! # The engine client

`EngineClient` of `ipc/engine_client.dart`: its connection, its handshake, its requests and its end. Every method runs
up to its next await at once, and what is suspended goes on in any order, but a handshake whose request is completed
goes on before anything that comes from outside: the network, a timer, the end of a `close`. What the client sends,
the values of `lastError` and of `health`, and how long it waits are left out; a line is the JSON value it is decoded
to, if it is JSON. A write to a socket just opened does not fail, and a client that is disposed is not started again.

An assignment to a notifier that is disposed, or an event added to the stream that is closed, is recorded in
`touched`, and what follows goes on, as in a release build. -/

namespace Notely.Desktop.EngineClient

open Notely.Lib Notely.Lib.Handles Notely.Lib.Strings Notely.Lib.Json Notely.Desktop.Dart Notely.Desktop.Protocol

/-! ### The state -/

/-- `EngineConnectionState`. -/
inductive EngineConnectionState
  | disconnected
  | connecting
  | connected
  | incompatible
  deriving DecidableEq

/-- How the future of a `send` completes. -/
inductive Completion
  | response (line : Value) (r : Response)
  /-- `ProtocolException`. -/
  | undecodable (failure : Failure)
  /-- `EngineUnavailable`. -/
  | unavailable (message : Text)
  /-- `TimeoutException`. -/
  | timedOut

/-- Where `dispose` stands. -/
inductive Disposing
  /-- `await _teardownSocket()`. -/
  | tearing
  /-- `await _events.close()`. -/
  | closing
  /-- The notifiers are disposed. -/
  | finished
  deriving DecidableEq

/-- A `_teardownSocket` that waits for its socket to close, called by `dispose` or by `_handshake`. -/
structure Teardown where
  socket : Option ℕ
  disposes : Bool
  deriving DecidableEq

/-- `EngineClient`, with the sockets, what is suspended, and what was completed. A socket is held with its
subscription. -/
structure Client where
  running : Bool := false
  socket : Option ℕ := none
  nextRequestId : ℕ := 0
  reconnectTimer : Slot := {}
  pending : List Text := []
  state : EngineConnectionState := .disconnected
  /-- The sockets whose subscription is live. -/
  listened : List ℕ := []
  /-- The sockets that are not destroyed. -/
  openSockets : List ℕ := []
  nextSocket : ℕ := 0
  /-- The `_connect`s suspended in `Socket.connect`. -/
  connects : ℕ := 0
  /-- The requests that suspended `_handshake`s wait for. -/
  handshakes : List Text := []
  teardowns : List Teardown := []
  disposing : Option Disposing := none
  completed : List (Text × Completion) := []
  touched : Bool := false

namespace Client

variable (c : Client)

/-! ### Notifiers and requests -/

/-- `_lastError` or `_health` is assigned. -/
def assign : Client := { c with touched := c.touched || decide (c.disposing = some .finished) }

/-- `_setState`. -/
def setState (s : EngineConnectionState) : Client := if c.state = s then c else { c.assign with state := s }

section Frame
variable (s : EngineConnectionState)

@[simp] theorem assign_frame : c.assign.running = c.running ∧ c.assign.socket = c.socket ∧
    c.assign.nextRequestId = c.nextRequestId ∧ c.assign.reconnectTimer = c.reconnectTimer ∧
    c.assign.pending = c.pending ∧ c.assign.state = c.state ∧ c.assign.listened = c.listened ∧
    c.assign.openSockets = c.openSockets ∧ c.assign.nextSocket = c.nextSocket ∧ c.assign.connects = c.connects ∧
    c.assign.handshakes = c.handshakes ∧ c.assign.teardowns = c.teardowns ∧ c.assign.disposing = c.disposing ∧
    c.assign.completed = c.completed := by
  simp [assign]

@[simp] theorem setState_frame : (c.setState s).running = c.running ∧ (c.setState s).socket = c.socket ∧
    (c.setState s).nextRequestId = c.nextRequestId ∧ (c.setState s).reconnectTimer = c.reconnectTimer ∧
    (c.setState s).pending = c.pending ∧ (c.setState s).state = s ∧ (c.setState s).listened = c.listened ∧
    (c.setState s).openSockets = c.openSockets ∧ (c.setState s).nextSocket = c.nextSocket ∧
    (c.setState s).connects = c.connects ∧ (c.setState s).handshakes = c.handshakes ∧
    (c.setState s).teardowns = c.teardowns ∧ (c.setState s).disposing = c.disposing ∧
    (c.setState s).completed = c.completed := by
  unfold setState
  split_ifs with h <;> simp [h]

end Frame

/-- `_events.add`. -/
def addEvent : Client :=
  { c with touched := c.touched || decide (c.disposing = some .closing ∨ c.disposing = some .finished) }

/-- `isCompleted`. -/
def isCompleted (id : Text) : Bool := (Table.get id c.completed).isSome

/-- A completer is completed. -/
def complete (id : Text) (how : Completion) : Client := { c with completed := c.completed ++ [(id, how)] }

/-- `_failPending`. -/
def failPending (message : Text) : Client :=
  { c with
    pending := []
    completed := c.completed ++
      (c.pending.filter fun id => ! c.isCompleted id).map fun id => (id, .unavailable message) }

/-- A request is registered and written. -/
def register : Client :=
  { c with nextRequestId := c.nextRequestId + 1, pending := c.pending ++ [digits c.nextRequestId] }

/-- `send`, up to its first suspension; it fails at once if it is not to be sent, or if the write throws. -/
def send (throws : Option Text) : Client :=
  if c.socket.isNone ∨ c.state = .incompatible then c
  else
    match throws with
    | none => c.register
    | some e =>
      { c with nextRequestId := c.nextRequestId + 1 }.complete (digits c.nextRequestId)
        (.unavailable ("write failed: ".toList ++ e))

/-- A request is sent over a socket, or not at all. -/
theorem send_cases (throws : Option Text) : c.send throws = c ∨ c.socket.isSome ∧
    (c.send throws = c.register ∨ ∃ e, c.send throws =
      { c with nextRequestId := c.nextRequestId + 1 }.complete (digits c.nextRequestId) (.unavailable e)) := by
  unfold send
  split_ifs with hrefused
  · exact Or.inl rfl
  · have hsocket : c.socket.isSome := by
      rw [Option.isSome_iff_ne_none]
      intro hnone
      exact hrefused (Or.inl (by simp [hnone]))
    cases throws with
    | none => exact Or.inr ⟨hsocket, Or.inl rfl⟩
    | some e => exact Or.inr ⟨hsocket, Or.inr ⟨_, rfl⟩⟩

/-! ### The connection -/

/-- `_teardownSocketSync`. -/
def teardownSocketSync : Client :=
  { c with
    socket := none
    listened := c.listened.filter fun n => c.socket ≠ some n
    openSockets := c.openSockets.filter fun n => c.socket ≠ some n }

/-- `_teardownSocket`, up to its first suspension. -/
def teardownSocket (disposes : Bool) : Client :=
  { c with
    socket := none
    listened := c.listened.filter fun n => c.socket ≠ some n
    teardowns := c.teardowns ++ [⟨c.socket, disposes⟩] }

/-- `_scheduleReconnect`. -/
def scheduleReconnect : Client :=
  if c.running then { c with reconnectTimer := c.reconnectTimer.cancel.take } else c

@[simp] theorem scheduleReconnect_frame : c.scheduleReconnect.running = c.running ∧
    c.scheduleReconnect.socket = c.socket ∧ c.scheduleReconnect.nextRequestId = c.nextRequestId ∧
    c.scheduleReconnect.pending = c.pending ∧ c.scheduleReconnect.state = c.state ∧
    c.scheduleReconnect.listened = c.listened ∧ c.scheduleReconnect.openSockets = c.openSockets ∧
    c.scheduleReconnect.nextSocket = c.nextSocket ∧ c.scheduleReconnect.connects = c.connects ∧
    c.scheduleReconnect.handshakes = c.handshakes ∧ c.scheduleReconnect.teardowns = c.teardowns ∧
    c.scheduleReconnect.disposing = c.disposing ∧ c.scheduleReconnect.completed = c.completed ∧
    c.scheduleReconnect.touched = c.touched := by
  unfold scheduleReconnect
  split_ifs <;> simp

/-- `_onDisconnected`. -/
def onDisconnected (reason : Text) : Client :=
  let c := (c.assign.failPending reason).teardownSocketSync
  (if c.state = .incompatible then c else c.setState .disconnected).scheduleReconnect

@[simp] theorem onDisconnected_frame (reason : Text) : (c.onDisconnected reason).running = c.running ∧
    (c.onDisconnected reason).socket = none ∧ (c.onDisconnected reason).nextRequestId = c.nextRequestId ∧
    (c.onDisconnected reason).pending = [] ∧
    (c.onDisconnected reason).listened = c.listened.filter (fun n => c.socket ≠ some n) ∧
    (c.onDisconnected reason).openSockets = c.openSockets.filter (fun n => c.socket ≠ some n) ∧
    (c.onDisconnected reason).connects = c.connects ∧ (c.onDisconnected reason).handshakes = c.handshakes ∧
    (c.onDisconnected reason).teardowns = c.teardowns ∧ (c.onDisconnected reason).disposing = c.disposing := by
  unfold onDisconnected
  dsimp only
  split_ifs <;> simp [teardownSocketSync, failPending]

theorem onDisconnected_reconnectTimer (reason : Text) : (c.onDisconnected reason).reconnectTimer =
    if c.running then c.reconnectTimer.cancel.take else c.reconnectTimer := by
  unfold onDisconnected scheduleReconnect
  by_cases hstate : c.state = .incompatible <;> by_cases hrunning : c.running = true <;>
    simp [teardownSocketSync, failPending, hstate, hrunning]

/-- `_connect`, up to its first suspension. -/
def connect : Client :=
  if ! c.running || c.socket.isSome then c
  else
    let c := { c with reconnectTimer := c.reconnectTimer.cancel.drop }.setState .connecting
    { c with connects := c.connects + 1 }

@[simp] theorem connect_frame : c.connect.running = c.running ∧ c.connect.socket = c.socket ∧
    c.connect.nextRequestId = c.nextRequestId ∧ c.connect.pending = c.pending ∧ c.connect.listened = c.listened ∧
    c.connect.openSockets = c.openSockets ∧ c.connect.nextSocket = c.nextSocket ∧
    c.connect.handshakes = c.handshakes ∧ c.connect.teardowns = c.teardowns ∧ c.connect.disposing = c.disposing ∧
    c.connect.completed = c.completed := by
  unfold connect
  split_ifs <;> simp

/-- `start`. -/
def start : Client := if c.running then c else { c with running := true }.connect

/-- `_connect` gets its socket, and calls `_handshake`. -/
def connected : Client :=
  let c :=
    { c with
      connects := c.connects - 1
      socket := some c.nextSocket
      listened := c.listened ++ [c.nextSocket]
      openSockets := c.openSockets ++ [c.nextSocket]
      nextSocket := c.nextSocket + 1 }
  let c := c.assign.setState .connected
  { c.register with handshakes := c.handshakes ++ [digits c.nextRequestId] }

/-- The text `protocol version`. -/
def versionWords : Text := "protocol version".toList

/-- The completion says that the engine is of another version. -/
def refuses : Completion → Bool
  | .response _ (.healthResponse info) => info.protocolVersion ≠ protocolVersion
  | .response _ (.errorResponse message) => decide (versionWords <:+: message)
  | _ => false

/-- The engine is not talked to any more. -/
def refuse : Client := { c.assign.setState .incompatible with running := false }.teardownSocket false

@[simp] theorem refuse_frame : c.refuse.running = false ∧ c.refuse.socket = none ∧
    c.refuse.nextRequestId = c.nextRequestId ∧ c.refuse.reconnectTimer = c.reconnectTimer ∧
    c.refuse.pending = c.pending ∧ c.refuse.state = .incompatible ∧
    c.refuse.listened = c.listened.filter (fun n => c.socket ≠ some n) ∧ c.refuse.openSockets = c.openSockets ∧
    c.refuse.connects = c.connects ∧ c.refuse.handshakes = c.handshakes ∧
    c.refuse.teardowns = c.teardowns ++ [⟨c.socket, false⟩] ∧ c.refuse.disposing = c.disposing ∧
    c.refuse.completed = c.completed := by
  simp [refuse, teardownSocket]

/-- `_handshake`, after its request is completed. -/
def handshaken (how : Completion) : Client :=
  match how with
  | .response _ (.healthResponse _) => if refuses how then c.assign.refuse else c.assign
  | .response _ (.errorResponse _) => if refuses how then c.assign.refuse else c.assign
  | .response _ _ | .unavailable _ => c
  | .undecodable _ | .timedOut => c.assign

/-- A handshake refuses the engine, or leaves the connection as it is. -/
theorem handshaken_cases (how : Completion) : (refuses how = true ∧ c.handshaken how = c.assign.refuse) ∨
    (refuses how = false ∧ (c.handshaken how = c ∨ c.handshaken how = c.assign)) := by
  cases how with
  | response line r =>
    cases r with
    | healthResponse info =>
      unfold handshaken
      split_ifs with hrefuses
      · exact Or.inl ⟨hrefuses, rfl⟩
      · exact Or.inr ⟨Bool.eq_false_iff.mpr hrefuses, Or.inr rfl⟩
    | errorResponse message =>
      unfold handshaken
      split_ifs with hrefuses
      · exact Or.inl ⟨hrefuses, rfl⟩
      · exact Or.inr ⟨Bool.eq_false_iff.mpr hrefuses, Or.inr rfl⟩
    | _ => exact Or.inr ⟨rfl, Or.inl rfl⟩
  | unavailable message => exact Or.inr ⟨rfl, Or.inl rfl⟩
  | undecodable failure => exact Or.inr ⟨rfl, Or.inr rfl⟩
  | timedOut => exact Or.inr ⟨rfl, Or.inr rfl⟩

/-- `_handleLine`. -/
def handleLine (line : Option Value) : Client :=
  match line with
  | none => c.assign
  | some v =>
    match Protocol.handleLine c.pending v with
    | (.completed id r, pending) =>
      if c.isCompleted id then { c with pending := pending }
      else { c with pending := pending }.complete id (.response v r)
    | (.failed id failure, pending) =>
      if c.isCompleted id then { c with pending := pending }
      else { c with pending := pending }.complete id (.undecodable failure)
    | (.event _, _) => c.addEvent
    | (.ignored, _) => c
    | (.malformed, _) | (.undecodable _, _) | (.unrecognized, _) => c.assign

/-- `dispose`, up to its first suspension. -/
def dispose : Client :=
  let c := { c with running := false, reconnectTimer := c.reconnectTimer.cancel.drop }
  { (c.failPending "client disposed".toList).teardownSocket true with disposing := some .tearing }

/-- A `_teardownSocket` goes on, and its caller. -/
def closed (t : Teardown) : Client :=
  let c := { c with openSockets := c.openSockets.filter fun n => t.socket ≠ some n }
  if t.disposes then { c.setState .disconnected with disposing := some .closing } else c

/-- The reconnect timer fires. -/
def reconnect (timer : ℕ) : Client :=
  let c := { c with reconnectTimer := { c.reconnectTimer with live := c.reconnectTimer.live.erase timer } }
  if c.running && c.socket.isNone then c.connect else c

/-! ### Notifiers that are not disposed -/

section Untouched
variable {c}

theorem touched_assign (h : c.disposing ≠ some .finished) : c.assign.touched = c.touched := by simp [assign, h]

theorem touched_setState (h : c.disposing ≠ some .finished) (s : EngineConnectionState) :
    (c.setState s).touched = c.touched := by
  unfold setState
  split_ifs
  · rfl
  · exact touched_assign h

theorem touched_connect (h : c.disposing ≠ some .finished) : c.connect.touched = c.touched := by
  unfold connect
  split_ifs
  · rfl
  · exact touched_setState (c := { c with reconnectTimer := c.reconnectTimer.cancel.drop }) h _

theorem touched_connected (h : c.disposing ≠ some .finished) : c.connected.touched = c.touched := by
  unfold connected register
  dsimp only
  rw [touched_setState (by simpa using h), touched_assign (by simpa using h)]

theorem touched_refuse (h : c.disposing ≠ some .finished) : c.refuse.touched = c.touched :=
  (touched_setState (c := c.assign) (by simpa using h) _).trans (touched_assign h)

theorem touched_onDisconnected (h : c.disposing ≠ some .finished) (reason : Text) :
    (c.onDisconnected reason).touched = c.touched := by
  have hassign : (c.assign.failPending reason).teardownSocketSync.touched = c.touched := touched_assign h
  unfold onDisconnected
  dsimp only
  rw [(scheduleReconnect_frame _).2.2.2.2.2.2.2.2.2.2.2.2.2]
  split_ifs
  · exact hassign
  · exact (touched_setState (by simpa [teardownSocketSync, failPending] using h) _).trans hassign

end Untouched

/-! ### Steps -/

/-- A handshake can go on. -/
def Ready : Prop := ∃ id ∈ c.handshakes, c.isCompleted id = true

instance : Decidable c.Ready := inferInstanceAs (Decidable (∃ id ∈ c.handshakes, c.isCompleted id = true))

end Client

inductive Action
  | start
  /-- `send`; the write may throw. -/
  | send (throws : Option Text)
  | dispose
  /-- A handshake goes on. -/
  | handshaken (id : Text)
  /-- `Socket.connect` gives a socket. -/
  | connected
  /-- `Socket.connect` throws. -/
  | connectFailed (e : Text)
  /-- The lines of a chunk. -/
  | data (socket : ℕ) (lines : List (Option Value))
  /-- The socket fails or is closed. -/
  | lost (socket : ℕ) (reason : Text)
  /-- The time of a request is over. -/
  | timeout (id : ℕ)
  /-- The reconnect timer fires. -/
  | reconnect (timer : ℕ)
  /-- A socket is closed. -/
  | closed (t : Teardown)
  /-- The stream of events is closed: `dispose` disposes the notifiers. -/
  | disposed

/-- What comes from outside. -/
def outside : Action → Bool
  | .start | .send _ | .dispose | .handshaken _ => false
  | _ => true

/-- An action, whether it has to wait or not. -/
def turn (c : Client) : Action → Option Client
  | .start => if c.disposing.isNone then some c.start else none
  | .send throws => some (c.send throws)
  | .dispose => if c.disposing.isNone then some c.dispose else none
  | .handshaken id =>
    match Table.get id c.completed with
    | some how =>
      if c.handshakes.contains id then
        some ({ c with handshakes := c.handshakes.erase id }.handshaken how)
      else none
    | none => none
  | .connected => if c.connects = 0 then none else some c.connected
  | .connectFailed e =>
    if c.connects = 0 then none
    else some ({ c with connects := c.connects - 1 }.onDisconnected ("connect failed: ".toList ++ e))
  | .data socket lines => if c.listened.contains socket then some (lines.foldl Client.handleLine c) else none
  | .lost socket reason => if c.listened.contains socket then some (c.onDisconnected reason) else none
  | .timeout id =>
    if id < c.nextRequestId ∧ c.isCompleted (digits id) = false then
      some ({ c with pending := c.pending.erase (digits id) }.complete (digits id) .timedOut)
    else none
  | .reconnect timer =>
    if c.reconnectTimer.live.contains timer then some (c.reconnect timer) else none
  | .closed t => if c.teardowns.contains t then some ({ c with teardowns := c.teardowns.erase t }.closed t) else none
  | .disposed => if c.disposing = some .closing then some { c with disposing := some .finished } else none

/-- **One action**: what comes from outside waits for a handshake that can go on. -/
def step (c : Client) (a : Action) : Option Client := if outside a && decide c.Ready then none else turn c a

/-- **What an action does.** -/
inductive Moves (c : Client) : Action → Client → Prop
  | start (hdisposing : c.disposing = none) : Moves c .start c.start
  | send (throws : Option Text) : Moves c (.send throws) (c.send throws)
  | dispose (hdisposing : c.disposing = none) : Moves c .dispose c.dispose
  | handshaken {id : Text} {how : Completion} (hhow : Table.get id c.completed = some how) (hid : id ∈ c.handshakes) :
      Moves c (.handshaken id) ({ c with handshakes := c.handshakes.erase id }.handshaken how)
  | connected (hready : ¬ c.Ready) (hconnects : c.connects ≠ 0) : Moves c .connected c.connected
  | connectFailed (e : Text) (hready : ¬ c.Ready) (hconnects : c.connects ≠ 0) :
      Moves c (.connectFailed e)
        ({ c with connects := c.connects - 1 }.onDisconnected ("connect failed: ".toList ++ e))
  | data {socket : ℕ} (lines : List (Option Value)) (hready : ¬ c.Ready) (hlistened : socket ∈ c.listened) :
      Moves c (.data socket lines) (lines.foldl Client.handleLine c)
  | lost {socket : ℕ} (reason : Text) (hready : ¬ c.Ready) (hlistened : socket ∈ c.listened) :
      Moves c (.lost socket reason) (c.onDisconnected reason)
  | timeout {id : ℕ} (hready : ¬ c.Ready) (hid : id < c.nextRequestId) (hopen : c.isCompleted (digits id) = false) :
      Moves c (.timeout id) ({ c with pending := c.pending.erase (digits id) }.complete (digits id) .timedOut)
  | reconnect {timer : ℕ} (hready : ¬ c.Ready) (hlive : timer ∈ c.reconnectTimer.live) :
      Moves c (.reconnect timer) (c.reconnect timer)
  | closed {t : Teardown} (hready : ¬ c.Ready) (ht : t ∈ c.teardowns) :
      Moves c (.closed t) ({ c with teardowns := c.teardowns.erase t }.closed t)
  | disposed (hready : ¬ c.Ready) (hclosing : c.disposing = some .closing) :
      Moves c .disposed { c with disposing := some .finished }

theorem moves_of_step {c c' : Client} {a : Action} (hs : step c a = some c') : Moves c a c' := by
  have hturn : turn c a = some c' := by
    unfold step at hs
    split_ifs at hs
    exact hs
  have hready : outside a = true → ¬ c.Ready := by
    intro ha hready
    simp [step, ha, hready] at hs
  cases a with
  | start =>
    simp only [turn, Option.ite_none_right_eq_some, Option.some.injEq, Option.isNone_iff_eq_none] at hturn
    obtain ⟨hdisposing, rfl⟩ := hturn
    exact .start hdisposing
  | send throws =>
    obtain rfl := Option.some.inj hturn
    exact .send throws
  | dispose =>
    simp only [turn, Option.ite_none_right_eq_some, Option.some.injEq, Option.isNone_iff_eq_none] at hturn
    obtain ⟨hdisposing, rfl⟩ := hturn
    exact .dispose hdisposing
  | handshaken id =>
    simp only [turn] at hturn
    split at hturn
    · next how hhow =>
      simp only [Option.ite_none_right_eq_some, Option.some.injEq, List.contains_iff_mem] at hturn
      obtain ⟨hid, rfl⟩ := hturn
      exact .handshaken hhow hid
    · cases hturn
  | connected =>
    simp only [turn, Option.ite_none_left_eq_some, Option.some.injEq] at hturn
    obtain ⟨hconnects, rfl⟩ := hturn
    exact .connected (hready rfl) hconnects
  | connectFailed e =>
    simp only [turn, Option.ite_none_left_eq_some, Option.some.injEq] at hturn
    obtain ⟨hconnects, rfl⟩ := hturn
    exact .connectFailed e (hready rfl) hconnects
  | data socket lines =>
    simp only [turn, Option.ite_none_right_eq_some, Option.some.injEq, List.contains_iff_mem] at hturn
    obtain ⟨hlistened, rfl⟩ := hturn
    exact .data lines (hready rfl) hlistened
  | lost socket reason =>
    simp only [turn, Option.ite_none_right_eq_some, Option.some.injEq, List.contains_iff_mem] at hturn
    obtain ⟨hlistened, rfl⟩ := hturn
    exact .lost reason (hready rfl) hlistened
  | timeout id =>
    simp only [turn, Option.ite_none_right_eq_some, Option.some.injEq] at hturn
    obtain ⟨⟨hid, hopen⟩, rfl⟩ := hturn
    exact .timeout (hready rfl) hid hopen
  | reconnect timer =>
    simp only [turn, Option.ite_none_right_eq_some, Option.some.injEq, List.contains_iff_mem] at hturn
    obtain ⟨hlive, rfl⟩ := hturn
    exact .reconnect (hready rfl) hlive
  | closed t =>
    simp only [turn, Option.ite_none_right_eq_some, Option.some.injEq, List.contains_iff_mem] at hturn
    obtain ⟨ht, rfl⟩ := hturn
    exact .closed (hready rfl) ht
  | disposed =>
    simp only [turn, Option.ite_none_right_eq_some, Option.some.injEq] at hturn
    obtain ⟨hclosing, rfl⟩ := hturn
    exact .disposed (hready rfl) hclosing

end Notely.Desktop.EngineClient
