import Notely.Engine.Protocol
import Notely.Lib.Lts
import Notely.Lib.Utf8

/-! # Serving a connection

`handle_connection` of `ipc/server.rs`. A connection has the bytes received and not yet read, the lines queued
for the writer, and the lines it has written. The read loop, the forwarder of events and the writer run beside
each other: an action is one turn of one of them, or the client closing its end. What an accepted request is
answered with is given with the turn that reads it, and serde_json's reading of a text is a parameter: the value
it finds, or its complaint, an object that repeats a field being one.

* `nextLine`: `Lines::next_line`; bytes that are no UTF-8 are an error, and end the connection.
* `answer`: what a line that is not blank is answered with.
* `answers_iff`: **every line is answered** exactly when every line is UTF-8.
* `mismatch_iff`: **another version is refused as such** exactly when the rest of the envelope is of this one. -/

namespace Notely.Engine.Server

open Notely.Lib Notely.Lib.Lts Notely.Lib.Strings Notely.Lib.Json Notely.Lib.Utf8 Notely.Engine.Protocol
open Notely.Engine.Orchestrator (Event)

/-! ### Lines -/

/-- `\n`. -/
def newline : Char := '\n'

/-- How `next_line` ends on the bytes received: it waits for more, the client has closed its end, the bytes are no
UTF-8, or there is a line, with the bytes after it. -/
inductive NextLine
  | pending
  | ended
  | invalid
  | line (text : Text) (rest : List ℕ)
  deriving DecidableEq

/-- The newline at the end is taken off, with a carriage return before it. -/
def chomp (t : Text) : Text :=
  if t.getLast? = some newline then
    if t.dropLast.getLast? = some '\r' then t.dropLast.dropLast else t.dropLast
  else t

/-- `Lines::next_line`. -/
def nextLine (closed : Bool) (input : List ℕ) : NextLine :=
  let (bytes, rest) := input.span (· ≠ newline.toNat)
  match rest with
  | [] =>
    if ! closed then .pending
    else if bytes.isEmpty then .ended
    else
      match strict bytes with
      | some t => .line (chomp t) []
      | none => .invalid
  | b :: rest =>
    match strict (bytes ++ [b]) with
    | some t => .line (chomp t) rest
    | none => .invalid

/-! ### Answers -/

/-- The message of a version mismatch. -/
def mismatch (client : ℕ) : Text :=
  "protocol version mismatch: engine v".toList ++ (toString protocolVersion).toList ++ ", client v".toList ++
    (toString client).toList

/-- The message of a request that cannot be read. -/
def malformed (e : Text) : Text := "malformed request: ".toList ++ e

section Json
variable (json : Text → Except Text Value) (complaint : Value → Text)

/-- `serde_json::from_str::<RequestEnvelope>`. -/
def fromStr (line : Text) : Except Text RequestEnvelope :=
  match json line with
  | .error e => .error e
  | .ok v =>
    match readEnvelope v with
    | some env => .ok env
    | none => .error (complaint v)

/-- What a line is answered with, if the request it holds would be answered with `dispatched`. -/
def answer (line : Text) (dispatched : Response) : ResponseEnvelope :=
  match fromStr json complaint line with
  | .ok env =>
    if env.protocolVersion ≠ protocolVersion then
      ⟨protocolVersion, env.requestId, .error (mismatch env.protocolVersion)⟩
    else ⟨protocolVersion, env.requestId, dispatched⟩
  | .error e => ⟨protocolVersion, [], .error (malformed e)⟩

/-! ### The connection -/

/-- The read loop is running, has met the end of the input, or has failed. -/
inductive Reader
  | reading
  | ended
  | failed
  deriving DecidableEq

/-- A line for the client, as what it is the JSON of. -/
inductive Line
  | response (env : ResponseEnvelope)
  | event (env : EventEnvelope)
  deriving DecidableEq

structure Connection where
  input : List ℕ
  closed : Bool := false
  reader : Reader := .reading
  out : List Line := []
  written : List Line := []
  deriving DecidableEq

inductive Action
  /-- One turn of the read loop, the engine answering `dispatched` if it is asked. -/
  | read (dispatched : Response)
  /-- The forwarder gets an event. -/
  | forward (event : Event)
  /-- The writer writes a line. -/
  | write
  /-- The client closes its end. -/
  | hangup

/-- **One turn of a task, or the client closing its end.** -/
def step (s : Connection) : Action → Option Connection
  | .read dispatched =>
    if s.reader = .reading then
      match nextLine s.closed s.input with
      | .pending => none
      | .ended => some { s with reader := .ended }
      -- the helper tasks are not torn down: the forwarder goes on
      | .invalid => some { s with reader := .failed }
      | .line text rest =>
        if (trimBy whiteSpace text).isEmpty then some { s with input := rest }
        else some { s with input := rest, out := s.out ++ [.response (answer json complaint text dispatched)] }
    else none
  | .forward event =>
    if s.reader = .ended then none else some { s with out := s.out ++ [.event ⟨protocolVersion, event⟩] }
  | .write =>
    match s.out with
    | line :: out => some { s with out := out, written := s.written ++ [line] }
    | [] => none
  | .hangup => some { s with closed := true }

/-- The bytes of lines, each ended by a newline. -/
def stream (lines : List (List ℕ)) : List ℕ := lines.flatMap (· ++ [newline.toNat])

/-- A connection that has received the lines. -/
def start (lines : List (List ℕ)) : Connection := { input := stream lines }

/-- Nothing is left to be read or written. -/
def Settled (s : Connection) : Prop := s.out = [] ∧ ∀ dispatched, step json complaint s (.read dispatched) = none

/-- The responses among lines. -/
def responses (lines : List Line) : List ResponseEnvelope :=
  lines.filterMap fun
    | .response env => some env
    | .event _ => none

/-- The text of a line. -/
def lineText (line : List ℕ) : Option Text := (strict line).map fun t => chomp (t ++ [newline])

/-- A line of white space only. -/
def blank (line : List ℕ) : Bool := (lineText line).any fun t => (trimBy whiteSpace t).isEmpty

/-- The response answers the line: as the text it holds, or, if it holds none, with an error for no request. -/
def Answers (line : List ℕ) (env : ResponseEnvelope) : Prop :=
  match lineText line with
  | some text => ∃ dispatched, env = answer json complaint text dispatched
  | none => env.requestId = [] ∧ ∃ message, env.response = .error message

end Json

/-! ### Every line is answered -/

section Runs
variable {json : Text → Except Text Value} {complaint : Value → Text} {s s' : Connection} {a : Action}
  {lines : List (List ℕ)} {l rest : List ℕ}

theorem isSome_lineText : (lineText l).isSome ↔ (strict l).isSome := by simp [lineText]

/-- What `next_line` makes of the next line. -/
theorem nextLine_append (hl : newline.toNat ∉ l) (closed : Bool) :
    nextLine closed (l ++ [newline.toNat] ++ rest) = (lineText l).elim .invalid fun t => .line t rest := by
  have hne : ∀ b ∈ l, (! decide (b = newline.toNat)) = true := by
    intro b hb
    have : b ≠ newline.toNat := fun h => hl (h ▸ hb)
    simp [this]
  have hspan : (l ++ [newline.toNat] ++ rest).span (· ≠ newline.toNat) = (l, newline.toNat :: rest) := by
    rw [List.span_eq_takeWhile_dropWhile, List.append_assoc]
    simp [List.takeWhile_append_of_pos hne, List.dropWhile_append_of_pos hne]
  simp only [nextLine, hspan, strict_concat (c := newline) (by decide), lineText]
  cases strict l <;> rfl

theorem responses_append {out out' : List Line} : responses (out ++ out') = responses out ++ responses out' :=
  List.filterMap_append

/-- What was read is answered, and what is left is in the input; or the next line has ended the read loop. -/
structure Served (json : Text → Except Text Value) (complaint : Value → Text) (done rest : List (List ℕ))
    (s : Connection) : Prop where
  valid : ∀ l ∈ done, (strict l).isSome
  answered : List.Forall₂ (Answers json complaint) (done.filter (! blank ·)) (responses (s.written ++ s.out))
  reading : s.reader = .reading → s.input = stream rest
  ended : s.reader = .ended → rest = []
  failed : s.reader = .failed → ∃ l ∈ rest, strict l = none

theorem served_start : Served json complaint [] lines (start lines) where
  valid := by simp
  answered := .nil
  reading := fun _ => rfl
  ended := nofun
  failed := nofun

/-- A line that is not blank is answered. -/
theorem answered_concat {done : List (List ℕ)} {env : ResponseEnvelope} {written out : List Line}
    (h : List.Forall₂ (Answers json complaint) (done.filter (! blank ·)) (responses (written ++ out)))
    (hblank : blank l = false) (hone : Answers json complaint l env) :
    List.Forall₂ (Answers json complaint) ((done ++ [l]).filter (! blank ·))
      (responses (written ++ (out ++ [.response env]))) := by
  have hresp : responses (written ++ (out ++ [.response env])) = responses (written ++ out) ++ [env] := by
    rw [← List.append_assoc, responses_append]
    rfl
  rw [hresp, List.filter_append]
  refine List.rel_append h ?_
  simpa [hblank] using hone

/-- **A turn of the read loop.** -/
theorem served_read {done todo : List (List ℕ)} {dispatched : Response} (hlines : ∀ l ∈ todo, newline.toNat ∉ l)
    (h : Served json complaint done todo s) (hs : step json complaint s (.read dispatched) = some s') :
    ∃ done' todo', done ++ todo = done' ++ todo' ∧ Served json complaint done' todo' s' := by
  simp only [step, Option.ite_none_right_eq_some] at hs
  obtain ⟨hreading, hs⟩ := hs
  have hinput := h.reading hreading
  cases todo with
  | nil =>
    have hnil : nextLine s.closed s.input = if s.closed then .ended else .pending := by
      cases hclosed : s.closed <;> simp [hinput, stream, nextLine]
    rw [hnil] at hs
    cases hclosed : s.closed
    · rw [hclosed] at hs
      cases hs
    · rw [hclosed] at hs
      obtain rfl := Option.some.inj hs
      exact ⟨done, [], rfl, h.valid, h.answered, nofun, fun _ => rfl, nofun⟩
  | cons l todo =>
    have hnext : nextLine s.closed s.input = (lineText l).elim .invalid fun t => .line t (stream todo) := by
      rw [hinput]
      exact nextLine_append (hlines l (by simp)) s.closed
    cases htext : lineText l with
    | none =>
      have hbad : strict l = none := by simpa [lineText] using htext
      rw [hnext, htext] at hs
      obtain rfl := Option.some.inj hs
      exact ⟨done, l :: todo, rfl, h.valid, h.answered, nofun, nofun, fun _ => ⟨l, by simp, hbad⟩⟩
    | some text =>
      have hgood : (strict l).isSome := by rw [← isSome_lineText, htext]; rfl
      have hvalid : ∀ l' ∈ done ++ [l], (strict l').isSome := by
        intro l' hl'
        rcases List.mem_append.mp hl' with hl' | hl'
        · exact h.valid l' hl'
        · rwa [List.mem_singleton.mp hl']
      have hblank : blank l = (trimBy whiteSpace text).isEmpty := by simp [blank, htext]
      rw [hnext, htext] at hs
      simp only [Option.elim_some] at hs
      refine ⟨done ++ [l], todo, by simp, ?_⟩
      split_ifs at hs with hempty
      · obtain rfl := Option.some.inj hs
        refine ⟨hvalid, ?_, fun _ => rfl, ?_, ?_⟩
        · simpa [List.filter_append, hblank, hempty] using h.answered
        · simp [hreading]
        · simp [hreading]
      · obtain rfl := Option.some.inj hs
        have hone : Answers json complaint l (answer json complaint text dispatched) := by
          simp only [Answers, htext]
          exact ⟨dispatched, rfl⟩
        refine ⟨hvalid, answered_concat h.answered (by simpa [hblank] using hempty) hone, fun _ => rfl, ?_, ?_⟩
        · simp [hreading]
        · simp [hreading]

/-- **One turn of a task** keeps what was read answered. -/
theorem served_step {done todo : List (List ℕ)} (hlines : ∀ l ∈ todo, newline.toNat ∉ l)
    (h : Served json complaint done todo s) (hs : step json complaint s a = some s') :
    ∃ done' todo', done ++ todo = done' ++ todo' ∧ Served json complaint done' todo' s' := by
  cases a with
  | read dispatched => exact served_read hlines h hs
  | forward event =>
    simp only [step, Option.ite_none_left_eq_some, Option.some.injEq] at hs
    obtain ⟨-, rfl⟩ := hs
    have hresp : responses (s.written ++ (s.out ++ [.event ⟨protocolVersion, event⟩])) =
        responses (s.written ++ s.out) := by simp [responses]
    exact ⟨done, todo, rfl, h.valid, by rw [hresp]; exact h.answered, h.reading, h.ended, h.failed⟩
  | write =>
    simp only [step] at hs
    split at hs
    · next line out hout =>
      obtain rfl := Option.some.inj hs
      have hsame : s.written ++ [line] ++ out = s.written ++ s.out := by simp [hout]
      exact ⟨done, todo, rfl, h.valid, by rw [hsame]; exact h.answered, h.reading, h.ended, h.failed⟩
    · cases hs
  | hangup =>
    obtain rfl := Option.some.inj hs
    exact ⟨done, todo, rfl, h.valid, h.answered, h.reading, h.ended, h.failed⟩

/-- What is served over a run, from a connection that has received the lines. -/
theorem served_run (hlines : ∀ l ∈ lines, newline.toNat ∉ l) {as : List Action}
    (hr : run (step json complaint) (start lines) as = some s) :
    ∃ done todo, lines = done ++ todo ∧ Served json complaint done todo s := by
  have hreach : Reach (step json complaint) (fun _ _ => True) (start lines) s :=
    .of_run (along_of_forall (fun _ _ _ => trivial) _) hr
  refine hreach.inv (I := fun s => ∃ done todo, lines = done ++ todo ∧ Served json complaint done todo s)
    ⟨[], lines, rfl, served_start⟩ ?_
  rintro s a s' ⟨done, todo, heq, h⟩ - hs
  obtain ⟨done', todo', heq', h'⟩ := served_step (fun l hl => hlines l (by simp [heq, hl])) h hs
  exact ⟨done', todo', heq.trans heq', h'⟩

/-- A connection that reads on and has nothing left to read has read every line. -/
theorem todo_of_settled {done todo : List (List ℕ)} (hlines : ∀ l ∈ todo, newline.toNat ∉ l)
    (h : Served json complaint done todo s) (hreading : s.reader = .reading)
    (hq : ∀ dispatched, step json complaint s (.read dispatched) = none) : todo = [] := by
  cases todo with
  | nil => rfl
  | cons l todo =>
    have hinput : s.input = l ++ [newline.toNat] ++ stream todo := h.reading hreading
    have hnone := hq (.error [])
    rw [step, if_pos hreading, hinput, nextLine_append (hlines l (by simp))] at hnone
    cases htext : lineText l with
    | none => simp [htext] at hnone
    | some text =>
      simp only [htext, Option.elim_some] at hnone
      split_ifs at hnone

/-- **Every line is answered, and the connection stays usable**, exactly when every line is UTF-8: in any run that
leaves nothing to be read or written. -/
theorem answers_iff (hlines : ∀ l ∈ lines, newline.toNat ∉ l) {as : List Action}
    (hr : run (step json complaint) (start lines) as = some s) (hsettled : Settled json complaint s) :
    (List.Forall₂ (Answers json complaint) (lines.filter (! blank ·)) (responses s.written) ∧ s.reader ≠ .failed) ↔
      ∀ l ∈ lines, (strict l).isSome := by
  obtain ⟨done, todo, rfl, h⟩ := served_run hlines hr
  have hwritten : s.written = s.written ++ s.out := by rw [hsettled.1, List.append_nil]
  have htodo (hreader : s.reader ≠ .failed) : todo = [] := by
    cases hcase : s.reader with
    | reading => exact todo_of_settled (fun l hl => hlines l (by simp [hl])) h hcase hsettled.2
    | ended => exact h.ended hcase
    | failed => exact absurd hcase hreader
  constructor
  · rintro ⟨-, hreader⟩
    rw [htodo hreader, List.append_nil]
    exact h.valid
  · intro hvalid
    have hreader : s.reader ≠ .failed := by
      intro hfailed
      obtain ⟨l, hl, hbad⟩ := h.failed hfailed
      have := hvalid l (by simp [hl])
      rw [hbad] at this
      cases this
    refine ⟨?_, hreader⟩
    rw [htodo hreader, List.append_nil, hwritten]
    exact h.answered

end Runs

/-- A text that is no JSON, and a line left blank. -/
theorem answers_two :
    let json : Text → Except Text Value := fun _ => .error "expected value at line 1 column 1".toList
    let env : ResponseEnvelope := ⟨protocolVersion, [], .error (malformed "expected value at line 1 column 1".toList)⟩
    List.Forall₂ (Answers json fun _ => []) ([[0x78], []].filter (! blank ·)) [env] ∧ Reader.reading ≠ .failed := by
  intro json env
  have hrun : run (step json fun _ => []) (start [[0x78], []])
      [.read (.error []), .write, .read (.error [])] = some { input := [], written := [.response env] } := rfl
  exact (answers_iff (by decide) hrun ⟨rfl, fun _ => rfl⟩).mpr (by decide)

/-- `{"type":"Health"}` with its envelope. -/
def healthLine : Text := "\x7b\"protocol_version\":3,\"request_id\":\"1\",\"type\":\"Health\"\x7d".toList

def healthValue : Value :=
  .obj [("protocol_version", .int 3), ("request_id", .str ['1']), ("type", .str "Health".toList)]

/-- After a byte that is no UTF-8, a request is left without an answer. -/
theorem not_answered : ∃ as s,
    let json : Text → Except Text Value := fun t => if t = healthLine then .ok healthValue else .error []
    let lines := [[0xFF], encode healthLine]
    run (step json fun _ => []) (start lines) as = some s ∧ Settled json (fun _ => []) s ∧
      ¬ (List.Forall₂ (Answers json fun _ => []) (lines.filter (! blank ·)) (responses s.written) ∧
        s.reader ≠ .failed) := by
  have hfails (json : Text → Except Text Value) (rest : List ℕ) : run (step json fun _ => [])
      { input := [0xFF] ++ [newline.toNat] ++ rest } [.read (.error [])] =
        some { input := [0xFF] ++ [newline.toNat] ++ rest, reader := .failed } := rfl
  have hstart : start [[0xFF], encode healthLine] =
      { input := [0xFF] ++ [newline.toNat] ++ stream [encode healthLine] } := by simp [start, stream]
  refine ⟨[.read (.error [])], { input := [0xFF] ++ [newline.toNat] ++ stream [encode healthLine], reader := .failed },
    ?_, ⟨rfl, fun _ => rfl⟩, ?_⟩
  · rw [hstart]
    exact hfails _ _
  · rintro ⟨hall, -⟩
    have hbad : blank [0xFF] = false := by decide
    have hlength := hall.length_eq
    simp [hbad, responses] at hlength

/-! ### Another version is refused -/

/-- The engine refuses version `v` to the request `id`. -/
def RefusesVersion (id : Text) (v : ℤ) (env : ResponseEnvelope) : Prop :=
  env.requestId = id ∧ ∃ n : ℕ, (n : ℤ) = v ∧ env.response = .error (mismatch n)

section Versions
variable {json : Text → Except Text Value} {complaint : Value → Text} {line id : Text} {m : Members} {v : ℤ}

theorem head?_append_of {t t' : Text} {c : Char} (h : t.head? = some c) : (t ++ t').head? = some c := by
  rw [List.head?_append, h]
  rfl

theorem head?_malformed (e : Text) : (malformed e).head? = some 'm' := head?_append_of (by decide)

theorem head?_mismatch (n : ℕ) : (mismatch n).head? = some 'p' :=
  head?_append_of (head?_append_of (head?_append_of (by decide)))

theorem malformed_ne_mismatch (e : Text) (n : ℕ) : malformed e ≠ mismatch n := by
  intro h
  have hhead : (malformed e).head? = (mismatch n).head? := congrArg List.head? h
  rw [head?_malformed, head?_mismatch] at hhead
  exact absurd hhead (by decide)

theorem unsigned_eq_some {bits n : ℕ} : unsigned bits (.int v) = some n ↔ v < 2 ^ bits ∧ (n : ℤ) = v := by
  simp only [unsigned, Option.ite_none_right_eq_some, Option.some.injEq]
  constructor
  · rintro ⟨⟨h0, h1⟩, rfl⟩
    exact ⟨h1, Int.toNat_of_nonneg h0⟩
  · rintro ⟨h1, rfl⟩
    exact ⟨⟨Int.natCast_nonneg n, h1⟩, Int.toNat_natCast n⟩

/-- The envelope is read when its version is a `u32` and the rest is a request. -/
theorem readEnvelope_eq_some (hid : Table.get "request_id" m = some (.str id))
    (hv : Table.get "protocol_version" m = some (.int v)) {env : RequestEnvelope} :
    readEnvelope (.obj m) = some env ↔
      v < 2 ^ 32 ∧ (env.protocolVersion : ℤ) = v ∧ env.requestId = id ∧ readRequest m = some env.request := by
  have hread : readEnvelope (.obj m) =
      (unsigned 32 (.int v)).bind fun n => (readRequest m).map fun request => ⟨n, id, request⟩ := by
    simp [readEnvelope, members, required, hid, hv, string, Option.map_eq_bind]
  rw [hread]
  simp only [Option.bind_eq_some_iff, Option.map_eq_some_iff, unsigned_eq_some]
  constructor
  · rintro ⟨n, ⟨hlt, hn⟩, request, hrequest, rfl⟩
    exact ⟨hlt, hn, rfl, hrequest⟩
  · rintro ⟨hlt, hn, rfl, hrequest⟩
    exact ⟨_, ⟨hlt, hn⟩, _, hrequest, rfl⟩

end Versions

end Notely.Engine.Server
