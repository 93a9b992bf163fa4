import Notely.Desktop.Protocol

/-! # Conversations in the preferences

`AskMessage` and `AskConversation` of `features/ask/ask_state.dart`, `AskAnswer` and `Citation` of
`services/ask/ask_service.dart`, and `AskStore` of `services/ask/ask_store.dart`, which keeps all conversations in one
JSON text. Items that are no conversations, messages, files or citations are dropped in reading; a cast that fails
throws, and then nothing is read.

* `load_save`: what was saved is read again, except for the placeholders of answers to come.
* `persisted_of_mem_load`: what is read has no placeholders. -/

namespace Notely.Desktop.AskStore

open Notely.Lib Notely.Lib.Strings Notely.Lib.Json Notely.Desktop.Protocol

/-! ### The data -/

/-- `Citation`. -/
structure Citation where
  path : Text
  startLine : Int64
  endLine : Int64
  snippet : Text
  deriving DecidableEq

/-- `AskAnswer`. -/
structure AskAnswer where
  text : Text
  filesRead : List Text
  citations : List Citation
  deriving DecidableEq

/-- `AskMessage`. -/
inductive AskMessage
  | user (text : Text)
  | loading
  | assistant (answer : AskAnswer)
  deriving DecidableEq

/-- `loading`. -/
def AskMessage.isLoading : AskMessage → Bool
  | .loading => true
  | .user _ | .assistant _ => false

/-- `AskConversation`. -/
structure AskConversation where
  id : Text
  stashRoot : Text
  title : Text
  updatedAt : Int64
  messages : List AskMessage
  deriving DecidableEq

/-- A conversation without the placeholders of answers to come. -/
def AskConversation.persisted (c : AskConversation) : AskConversation :=
  { c with messages := c.messages.filter (! ·.isLoading) }

/-! ### Writing -/

/-- `Citation.toJson`. -/
def Citation.toJson (c : Citation) : Value :=
  .obj [("path", .str c.path), ("startLine", .int c.startLine.toInt), ("endLine", .int c.endLine.toInt),
    ("snippet", .str c.snippet)]

/-- `AskAnswer.toJson`. -/
def AskAnswer.toJson (a : AskAnswer) : Value :=
  .obj [("text", .str a.text), ("filesRead", .arr (a.filesRead.map .str)),
    ("citations", .arr (a.citations.map Citation.toJson))]

/-- `AskMessage.toJson`; a placeholder has no `answer!`. -/
def AskMessage.toJson : AskMessage → Option Value
  | .user text => some (.obj [("role", .str "user".toList), ("text", .str text)])
  | .assistant answer => some (.obj [("role", .str "assistant".toList), ("answer", answer.toJson)])
  | .loading => none

/-- `AskConversation.toJson`. -/
def AskConversation.toJson (c : AskConversation) : Value :=
  .obj [("id", .str c.id), ("stashRoot", .str c.stashRoot), ("title", .str c.title),
    ("updatedAt", .int c.updatedAt.toInt),
    ("messages", .arr ((c.messages.filter (! ·.isLoading)).filterMap AskMessage.toJson))]

/-! ### Reading -/

/-- `(value as num?)?.toInt() ?? 0`. -/
def asInt (v : Value) : Decoded Int64 := do
  let n ← orNull asNum v
  return (n.map fun n => Int64.ofInt n.toInt).getD 0

/-- The items of a list that are read as something. -/
def readAll {α : Type} (read : Value → Decoded (Option α)) (vs : List Value) : Decoded (List α) := do
  let items ← vs.mapM read
  return items.filterMap id

/-- `Citation.fromJson`. -/
def Citation.fromJson : Value → Decoded (Option Citation)
  | .obj json =>
    match index json "path" with
    | .str path => do
      let startLine ← asInt (index json "startLine")
      let endLine ← asInt (index json "endLine")
      let snippet ← orNull asString (index json "snippet")
      return some ⟨path, startLine, endLine, snippet.getD []⟩
    | _ => return none
  | _ => return none

/-- `AskAnswer.fromJson`. -/
def AskAnswer.fromJson : Value → Decoded (Option AskAnswer)
  | .obj json =>
    match index json "text" with
    | .str text => do
      let filesRead ← orNull asList (index json "filesRead")
      let citations ← orNull asList (index json "citations")
      let citations ← readAll Citation.fromJson (citations.getD [])
      return some ⟨text, strings (filesRead.getD []), citations⟩
    | _ => return none
  | _ => return none

/-- `AskMessage.fromJson`. -/
def AskMessage.fromJson : Value → Decoded (Option AskMessage)
  | .obj json =>
    match index json "role", index json "text" with
    | .str role, text => do
      if role = "user".toList then
        match text with
        | .str text => return some (.user text)
        | _ => return none
      else if role = "assistant".toList then
        let answer ← AskAnswer.fromJson (index json "answer")
        return answer.map .assistant
      else return none
    | _, _ => return none
  | _ => return none

/-- `AskConversation.fromJson`. -/
def AskConversation.fromJson : Value → Decoded (Option AskConversation)
  | .obj json =>
    match index json "id" with
    | .str id => do
      let stashRoot ← orNull asString (index json "stashRoot")
      let title ← orNull asString (index json "title")
      let updatedAt ← asInt (index json "updatedAt")
      let messages ← orNull asList (index json "messages")
      let messages ← readAll AskMessage.fromJson (messages.getD [])
      return some ⟨id, stashRoot.getD [], title.getD [], updatedAt, messages⟩
    | _ => return none
  | _ => return none

/-! ### The preferences -/

/-- What the preferences hold under the key: nothing, or a text, which may not be JSON. -/
inductive Stored
  | absent
  | text (json : Option Value)

/-- `save`. -/
def save (conversations : List AskConversation) : Stored :=
  .text (some (.arr (conversations.map AskConversation.toJson)))

/-- `load`, of what the preferences hold. -/
def load : Stored → List AskConversation
  | .text (some (.arr decoded)) =>
    match readAll AskConversation.fromJson decoded with
    | .ok conversations => conversations
    | .error _ => []
  | .absent | .text _ => []

/-! ### Round trips -/

@[simp] theorem asInt_toInt (n : Int64) : asInt (.int n.toInt) = .ok n := by
  have hint : IsInt n.toInt := ⟨n.le_toInt, n.toInt_lt⟩
  simp [asInt, orNull_of_ne, asNum, hint]

/-- Items that are read as they were written are read so as a list. -/
theorem readAll_map {α β : Type} {write : β → Value} {read : Value → Decoded (Option α)} {g : β → α} {items : List β}
    (h : ∀ b ∈ items, read (write b) = .ok (some (g b))) : readAll read (items.map write) = .ok (items.map g) := by
  have hmap : (items.map write).mapM read = .ok (items.map fun b => some (g b)) :=
    mapM_map_pure (M := Decoded) (g := fun b => some (g b)) h
  simp [readAll, hmap, List.filterMap_map]

/-- Items that are left out are not read. -/
theorem readAll_filterMap {α : Type} {write : α → Option Value} {read : Value → Decoded (Option α)} {items : List α}
    (h : ∀ a ∈ items, ∃ v, write a = some v ∧ read v = .ok (some a)) :
    readAll read (items.filterMap write) = .ok items := by
  have hitems : (items.filterMap write).mapM read = .ok (items.map some) :=
    mapM_filterMap_pure (M := Decoded) (g := some) h
  simp [readAll, hitems, List.filterMap_map]

theorem fromJson_citation (c : Citation) : Citation.fromJson c.toJson = .ok (some c) := by
  simp [Citation.toJson, Citation.fromJson, index, Table.get]

theorem fromJson_answer (a : AskAnswer) : AskAnswer.fromJson a.toJson = .ok (some a) := by
  have hcitations : readAll Citation.fromJson (a.citations.map Citation.toJson) = .ok a.citations := by
    simpa using readAll_map (g := fun c => c) fun c (_ : c ∈ a.citations) => fromJson_citation c
  simp [AskAnswer.toJson, AskAnswer.fromJson, index, Table.get, hcitations, strings_map_str]

/-- A message that is no placeholder is read as it was written. -/
theorem fromJson_message {m : AskMessage} (h : m.isLoading = false) :
    ∃ v, m.toJson = some v ∧ AskMessage.fromJson v = .ok (some m) := by
  cases m with
  | user text => exact ⟨_, rfl, by simp [AskMessage.fromJson, index, Table.get]⟩
  | assistant answer =>
    refine ⟨_, rfl, ?_⟩
    simp [AskMessage.fromJson, index, Table.get, fromJson_answer]
  | loading => cases h

/-- A conversation is read without its placeholders. -/
theorem fromJson_conversation (c : AskConversation) :
    AskConversation.fromJson c.toJson = .ok (some c.persisted) := by
  have hmessages : readAll AskMessage.fromJson ((c.messages.filter (! ·.isLoading)).filterMap AskMessage.toJson) =
      .ok (c.messages.filter (! ·.isLoading)) := by
    refine readAll_filterMap fun m hm => fromJson_message ?_
    simpa using (List.mem_filter.mp hm).2
  simp [AskConversation.toJson, AskConversation.fromJson, index, Table.get, hmessages, AskConversation.persisted]

/-- **What was saved is read again**, without the placeholders. -/
theorem load_save (conversations : List AskConversation) :
    load (save conversations) = conversations.map AskConversation.persisted := by
  have hall : readAll AskConversation.fromJson (conversations.map AskConversation.toJson) =
      .ok (conversations.map AskConversation.persisted) := readAll_map fun c _ => fromJson_conversation c
  simp only [load, save, hall]

/-! ### What is read -/

/-- What a computation gives is given by its parts. -/
theorem bind_eq_ok {α β : Type} {x : Decoded α} {f : α → Decoded β} {b : β} (h : (x >>= f) = .ok b) :
    ∃ a, x = .ok a ∧ f a = .ok b := by
  cases x with
  | ok a => exact ⟨a, rfl, h⟩
  | error e => cases h

/-- What is read of a list is read of one of its items. -/
theorem mem_readAll {α : Type} {read : Value → Decoded (Option α)} {vs : List Value} {items : List α} {a : α}
    (h : readAll read vs = .ok items) (ha : a ∈ items) : ∃ v, read v = .ok (some a) := by
  obtain ⟨all, hread, hitems⟩ := bind_eq_ok h
  have hmem : some a ∈ all := by
    obtain ⟨item, hitem, hsome⟩ := List.mem_filterMap.mp (Except.ok.inj hitems ▸ ha)
    exact hsome ▸ hitem
  clear h hitems ha
  induction vs generalizing all with
  | nil =>
    obtain rfl : [] = all := Except.ok.inj hread
    cases hmem
  | cons v vs ih =>
    rw [List.mapM_cons] at hread
    obtain ⟨first, hfirst, hrest⟩ := bind_eq_ok hread
    obtain ⟨rest, hvs, hwhole⟩ := bind_eq_ok hrest
    obtain rfl : first :: rest = all := Except.ok.inj hwhole
    rcases List.mem_cons.mp hmem with rfl | hmem
    · exact ⟨v, hfirst⟩
    · exact ih rest hvs hmem

/-- No placeholder is read. -/
theorem isLoading_of_fromJson {v : Value} {m : AskMessage} (h : AskMessage.fromJson v = .ok (some m)) :
    m.isLoading = false := by
  unfold AskMessage.fromJson at h
  split at h
  · split at h
    · split_ifs at h
      · split at h
        · obtain rfl := Option.some.inj (Except.ok.inj h)
          rfl
        · cases h
      · obtain ⟨answer, -, hanswer⟩ := bind_eq_ok h
        obtain ⟨a, -, rfl⟩ := Option.map_eq_some_iff.mp (Except.ok.inj hanswer)
        rfl
      · cases h
    · cases h
  · cases h

theorem messages_of_fromJson {v : Value} {c : AskConversation} (h : AskConversation.fromJson v = .ok (some c)) :
    ∀ m ∈ c.messages, m.isLoading = false := by
  intro m hm
  unfold AskConversation.fromJson at h
  split at h
  · split at h
    · obtain ⟨stashRoot, -, h⟩ := bind_eq_ok h
      obtain ⟨title, -, h⟩ := bind_eq_ok h
      obtain ⟨updatedAt, -, h⟩ := bind_eq_ok h
      obtain ⟨list, -, h⟩ := bind_eq_ok h
      obtain ⟨messages, hread, h⟩ := bind_eq_ok h
      obtain rfl := Option.some.inj (Except.ok.inj h)
      obtain ⟨v, hv⟩ := mem_readAll hread hm
      exact isLoading_of_fromJson hv
    · cases h
  · cases h

/-- **What is read has no placeholders.** -/
theorem persisted_of_mem_load {s : Stored} {c : AskConversation} (h : c ∈ load s) : c.persisted = c := by
  unfold load at h
  split at h
  · split at h
    · next conversations hread =>
      obtain ⟨v, hv⟩ := mem_readAll hread h
      have hclean : ∀ m ∈ c.messages, m.isLoading = false := messages_of_fromJson hv
      unfold AskConversation.persisted
      rw [List.filter_eq_self.mpr fun m hm => by simp [hclean m hm]]
    · cases h
  · cases h
  · cases h

end Notely.Desktop.AskStore
