import Notely.Desktop.AskState
import Notely.Lib.JsonPairs

/-! # Conversations as JSON texts

The codecs of `Desktop/AskStore`, down to the text that the preferences keep: `jsonEncode` writes it and `jsonDecode`
reads it back, after a restart. A Dart string is a list of UTF-16 code units, and a question that was cut for a title,
or pasted, may have half of a pair in it.

* `fromJson_conversation`: four codecs, one inside the other, and what is left out.
* `chat_survives_restart`: a conversation read from its text is the one that was written, without its placeholders.
* `load_save`: so is every conversation of the store.
* `paired_save`: what the preferences keep is well-formed, in whatever encoding they keep it.
* `toJson_ofText`: for well-formed strings these are the values of `Desktop/AskStore`. -/

namespace Notely.Desktop.SavedChats

open Notely.Lib.JsonText Notely.Lib.JsonPairs Notely.Desktop.Protocol
open Notely.Lib.Json (mapM_map_pure mapM_filterMap_pure)

/-! ### The data -/

/-- `Citation`. -/
structure Citation where
  path : Units
  startLine : Int64
  endLine : Int64
  snippet : Units
  deriving DecidableEq

/-- `AskAnswer`. -/
structure AskAnswer where
  text : Units
  filesRead : List Units
  citations : List Citation
  deriving DecidableEq

/-- `AskMessage`. -/
inductive AskMessage
  | user (text : Units)
  | loading
  | assistant (answer : AskAnswer)
  deriving DecidableEq

/-- `loading`. -/
def AskMessage.isLoading : AskMessage → Bool
  | .loading => true
  | .user _ | .assistant _ => false

/-- `AskConversation`. -/
structure AskConversation where
  id : Units
  stashRoot : Units
  title : Units
  updatedAt : Int64
  messages : List AskMessage
  deriving DecidableEq

/-- A conversation without its placeholders. -/
def AskConversation.persisted (c : AskConversation) : AskConversation :=
  { c with messages := c.messages.filter (! ·.isLoading) }

/-! ### Writing -/

/-- An object with the given members. -/
def object (members : List (String × Json)) : Json := .obj (members.map fun (name, v) => (ascii name, v))

/-- `Citation.toJson`. -/
def Citation.toJson (c : Citation) : Json :=
  object [("path", .str c.path), ("startLine", .int c.startLine.toInt), ("endLine", .int c.endLine.toInt),
    ("snippet", .str c.snippet)]

/-- `AskAnswer.toJson`. -/
def AskAnswer.toJson (a : AskAnswer) : Json :=
  object [("text", .str a.text), ("filesRead", .arr (a.filesRead.map .str)),
    ("citations", .arr (a.citations.map Citation.toJson))]

/-- `AskMessage.toJson`; a placeholder has no `answer!`. -/
def AskMessage.toJson : AskMessage → Option Json
  | .user text => some (object [("role", .str (ascii "user")), ("text", .str text)])
  | .assistant answer => some (object [("role", .str (ascii "assistant")), ("answer", answer.toJson)])
  | .loading => none

/-- `AskConversation.toJson`. -/
def AskConversation.toJson (c : AskConversation) : Json :=
  object [("id", .str c.id), ("stashRoot", .str c.stashRoot), ("title", .str c.title),
    ("updatedAt", .int c.updatedAt.toInt),
    ("messages", .arr ((c.messages.filter (! ·.isLoading)).filterMap AskMessage.toJson))]

/-! ### Casts -/

/-- `json[name]`: the last member of the name, or null. -/
def index (json : List (Units × Json)) (name : String) : Json :=
  ((json.reverse.find? (·.1 = ascii name)).map Prod.snd).getD .null

/-- `as List`. -/
def asList : Json → Decoded (List Json)
  | .arr vs => .ok vs
  | _ => .error .typeError

/-- `as String`. -/
def asString : Json → Decoded Units
  | .str s => .ok s
  | _ => .error .typeError

/-- `as num`: an integer that is no `int` was read as a double. -/
def asNum : Json → Decoded Protocol.Num
  | .int n => .ok (if IsInt n then .int n else .double n)
  | .dec q => .ok (.double q)
  | _ => .error .typeError

/-- A cast to a nullable type. -/
def orNull {α : Type} (cast : Json → Decoded α) : Json → Decoded (Option α)
  | .null => .ok none
  | v => some <$> cast v

/-- `(value as num?)?.toInt() ?? 0`. -/
def asInt (v : Json) : Decoded Int64 := do
  let n ← orNull asNum v
  return (n.map fun n => Int64.ofInt n.toInt).getD 0

/-- `whereType<String>`. -/
def strings (vs : List Json) : List Units :=
  vs.filterMap fun v => match v with
    | .str s => some s
    | _ => none

/-- The items of a list that are read as something. -/
def readAll {α : Type} (read : Json → Decoded (Option α)) (vs : List Json) : Decoded (List α) := do
  let items ← vs.mapM read
  return items.filterMap id

/-! ### Reading -/

/-- `Citation.fromJson`. -/
def Citation.fromJson : Json → Decoded (Option Citation)
  | .obj json =>
    match index json "path" with
    | .str path => do
      let startLine ← asInt (index json "startLine")
      let endLine ← asInt (index json "endLine")
      let snippet ← orNull asString (index json "snippet")
      return some ⟨path, startLine, endLine, snippet.getD []⟩
    | _ => return none
  | _ => return none

/-- `AskAnswer.fromJson`. -/
def AskAnswer.fromJson : Json → Decoded (Option AskAnswer)
  | .obj json =>
    match index json "text" with
    | .str text => do
      let filesRead ← orNull asList (index json "filesRead")
      let citations ← orNull asList (index json "citations")
      let citations ← readAll Citation.fromJson (citations.getD [])
      return some ⟨text, strings (filesRead.getD []), citations⟩
    | _ => return none
  | _ => return none

/-- `AskMessage.fromJson`. -/
def AskMessage.fromJson : Json → Decoded (Option AskMessage)
  | .obj json =>
    match index json "role", index json "text" with
    | .str role, text => do
      if role = ascii "user" then
        match text with
        | .str text => return some (.user text)
        | _ => return none
      else if role = ascii "assistant" then
        let answer ← AskAnswer.fromJson (index json "answer")
        return answer.map .assistant
      else return none
    | _, _ => return none
  | _ => return none

/-- `AskConversation.fromJson`. -/
def AskConversation.fromJson : Json → Decoded (Option AskConversation)
  | .obj json =>
    match index json "id" with
    | .str id => do
      let stashRoot ← orNull asString (index json "stashRoot")
      let title ← orNull asString (index json "title")
      let updatedAt ← asInt (index json "updatedAt")
      let messages ← orNull asList (index json "messages")
      let messages ← readAll AskMessage.fromJson (messages.getD [])
      return some ⟨id, stashRoot.getD [], title.getD [], updatedAt, messages⟩
    | _ => return none
  | _ => return none

/-! ### Round trips -/

@[simp] theorem asInt_toInt (n : Int64) : asInt (.int n.toInt) = .ok n := by
  have hint : IsInt n.toInt := ⟨n.le_toInt, n.toInt_lt⟩
  simp [asInt, orNull, asNum, hint]

@[simp] theorem index_object (members : List (String × Json)) (name : String) :
    index (members.map fun (name, v) => (ascii name, v)) name =
      ((members.reverse.find? (·.1 = name)).map Prod.snd).getD .null := by
  rw [index, ← List.map_reverse, List.find?_map, Option.map_map]
  simp [Function.comp_def]

theorem fromJson_citation (c : Citation) : Citation.fromJson c.toJson = .ok (some c) := by
  simp only [Citation.toJson, Citation.fromJson, object, index_object]
  simp [orNull, asString]

/-- Items that are read as they were written are read so as a list. -/
theorem readAll_map {α β : Type} {write : β → Json} {read : Json → Decoded (Option α)} {g : β → α} {items : List β}
    (h : ∀ b ∈ items, read (write b) = .ok (some (g b))) : readAll read (items.map write) = .ok (items.map g) := by
  have hmap : (items.map write).mapM read = .ok (items.map fun b => some (g b)) :=
    mapM_map_pure (M := Decoded) (g := fun b => some (g b)) h
  simp [readAll, hmap, List.filterMap_map]

theorem strings_map_str (l : List Units) : strings (l.map .str) = l := by
  simp [strings, List.filterMap_map]

theorem fromJson_answer (a : AskAnswer) : AskAnswer.fromJson a.toJson = .ok (some a) := by
  have hcitations : readAll Citation.fromJson (a.citations.map Citation.toJson) = .ok a.citations := by
    simpa using readAll_map (g := fun c => c) fun c (_ : c ∈ a.citations) => fromJson_citation c
  simp only [AskAnswer.toJson, AskAnswer.fromJson, object, index_object]
  simp [orNull, asList, hcitations, strings_map_str]

/-- A message that is no placeholder is read as it was written. -/
theorem fromJson_message {m : AskMessage} (h : m.isLoading = false) :
    ∃ v, m.toJson = some v ∧ AskMessage.fromJson v = .ok (some m) := by
  cases m with
  | user text =>
    refine ⟨_, rfl, ?_⟩
    simp only [AskMessage.fromJson, object, index_object]
    simp
  | assistant answer =>
    refine ⟨_, rfl, ?_⟩
    simp only [AskMessage.fromJson, object, index_object]
    simp [fromJson_answer]
  | loading => cases h

/-- **A conversation is read without its placeholders.** -/
theorem fromJson_conversation (c : AskConversation) : AskConversation.fromJson c.toJson = .ok (some c.persisted) := by
  have hmessages : readAll AskMessage.fromJson ((c.messages.filter (! ·.isLoading)).filterMap AskMessage.toJson) =
      .ok (c.messages.filter (! ·.isLoading)) := by
    have hitems : ((c.messages.filter (! ·.isLoading)).filterMap AskMessage.toJson).mapM AskMessage.fromJson =
        .ok ((c.messages.filter (! ·.isLoading)).map some) :=
      mapM_filterMap_pure (M := Decoded) (g := some) fun m hm =>
        fromJson_message (by simpa using (List.mem_filter.mp hm).2)
    simp [readAll, hitems, List.filterMap_map]
  simp only [AskConversation.toJson, AskConversation.fromJson, object, index_object]
  simp [orNull, asString, asList, hmessages, AskConversation.persisted]

/-! ### Through the text -/

/-- An object has no number with a fraction, if no member has. -/
theorem whole_object (members : List (String × Json)) : whole (object members) = members.all fun m => whole m.2 := by
  rw [object, whole, wholeMembers_eq, List.all_map]
  rfl

theorem wholeItems_map {α : Type} {write : α → Json} (items : List α) (h : ∀ a, whole (write a) = true) :
    wholeItems (items.map write) = true := by
  rw [wholeItems_eq, List.all_map, List.all_eq_true]
  exact fun a _ => h a

theorem whole_citation (c : Citation) : whole c.toJson = true := by
  rw [Citation.toJson, whole_object]
  rfl

theorem whole_answer (a : AskAnswer) : whole a.toJson = true := by
  have hfiles : wholeItems (a.filesRead.map .str) = true := wholeItems_map _ fun _ => rfl
  have hcitations : wholeItems (a.citations.map Citation.toJson) = true := wholeItems_map _ whole_citation
  simp only [AskAnswer.toJson, whole_object, List.all_cons, List.all_nil, whole, hfiles, hcitations, Bool.and_self]

theorem whole_message {m : AskMessage} {v : Json} (h : m.toJson = some v) : whole v = true := by
  cases m with
  | user text =>
    obtain rfl := Option.some.inj h
    rw [whole_object]
    rfl
  | assistant answer =>
    obtain rfl := Option.some.inj h
    simp only [whole_object, List.all_cons, List.all_nil, whole, whole_answer, Bool.and_self]
  | loading => cases h

theorem whole_conversation (c : AskConversation) : whole c.toJson = true := by
  have hmessages : wholeItems ((c.messages.filter (! ·.isLoading)).filterMap AskMessage.toJson) = true := by
    rw [wholeItems_eq, List.all_eq_true]
    intro v hv
    obtain ⟨m, -, hm⟩ := List.mem_filterMap.mp hv
    exact whole_message hm
  simp only [AskConversation.toJson, whole_object, List.all_cons, List.all_nil, whole, hmessages, Bool.and_self]

theorem decode_conversation (double : ℚ → Units) (c : AskConversation) :
    decode (encode double c.toJson) = some c.toJson := decode_encode (whole_conversation c)

/-- **A chat survives a restart**: read from its text, it is what was written, without its placeholders. -/
theorem chat_survives_restart (double : ℚ → Units) (c : AskConversation) :
    (decode (encode double c.toJson)).map AskConversation.fromJson = some (.ok (some c.persisted)) := by
  rw [decode_conversation, Option.map_some, fromJson_conversation]

/-! ### The store -/

/-- `save`: what the preferences hold then. -/
def save (double : ℚ → Units) (conversations : List AskConversation) : Units :=
  encode double (.arr (conversations.map AskConversation.toJson))

/-- `load`, of what the preferences hold. -/
def load : Option Units → List AskConversation
  | none => []
  | some raw =>
    match decode raw with
    | some (.arr decoded) =>
      match readAll AskConversation.fromJson decoded with
      | .ok conversations => conversations
      | .error _ => []
    | _ => []

theorem whole_conversations (conversations : List AskConversation) :
    whole (.arr (conversations.map AskConversation.toJson)) = true := wholeItems_map _ whole_conversation

/-- **What the preferences keep is well-formed**, also where a question is not. -/
theorem paired_save (double : ℚ → Units) (conversations : List AskConversation) :
    paired none (save double conversations) = true := paired_encode (whole_conversations conversations)

/-- **The store brings every chat back.** -/
theorem load_save (double : ℚ → Units) (conversations : List AskConversation) :
    load (some (save double conversations)) = conversations.map AskConversation.persisted := by
  have hall : readAll AskConversation.fromJson (conversations.map AskConversation.toJson) =
      .ok (conversations.map AskConversation.persisted) := readAll_map fun c _ => fromJson_conversation c
  simp only [load, save, decode_encode (whole_conversations conversations), hall]

/-! ### Well-formed strings -/

section WellFormed

open Notely.Lib.Json (Value)
open Notely.Desktop.AskState (codeUnits)

mutual

/-- A value with its strings as code units. -/
def ofValue : Value → Json
  | .null => .null
  | .bool b => .bool b
  | .int n => .int n
  | .dec q => .dec q
  | .str s => .str (codeUnits s)
  | .arr vs => .arr (ofItems vs)
  | .obj ms => .obj (ofMembers ms)

def ofItems : List Value → List Json
  | [] => []
  | v :: vs => ofValue v :: ofItems vs

def ofMembers : List (String × Value) → List (Units × Json)
  | [] => []
  | (name, v) :: ms => (ascii name, ofValue v) :: ofMembers ms

end

theorem ofItems_eq (vs : List Value) : ofItems vs = vs.map ofValue := by
  induction vs with
  | nil => rfl
  | cons v vs ih => rw [ofItems, List.map_cons, ih]

/-- A citation of well-formed strings. -/
def Citation.ofText (c : AskStore.Citation) : Citation :=
  ⟨codeUnits c.path, c.startLine, c.endLine, codeUnits c.snippet⟩

/-- An answer of well-formed strings. -/
def AskAnswer.ofText (a : AskStore.AskAnswer) : AskAnswer :=
  ⟨codeUnits a.text, a.filesRead.map codeUnits, a.citations.map Citation.ofText⟩

/-- A message of well-formed strings. -/
def AskMessage.ofText : AskStore.AskMessage → AskMessage
  | .user text => .user (codeUnits text)
  | .loading => .loading
  | .assistant answer => .assistant (.ofText answer)

/-- A conversation of well-formed strings. -/
def AskConversation.ofText (c : AskStore.AskConversation) : AskConversation :=
  ⟨codeUnits c.id, codeUnits c.stashRoot, codeUnits c.title, c.updatedAt, c.messages.map AskMessage.ofText⟩

theorem toJson_citation_ofText (c : AskStore.Citation) : (Citation.ofText c).toJson = ofValue c.toJson := rfl

theorem toJson_answer_ofText (a : AskStore.AskAnswer) : (AskAnswer.ofText a).toJson = ofValue a.toJson := by
  have hfiles : (a.filesRead.map codeUnits).map Json.str = ofItems (a.filesRead.map .str) := by
    rw [ofItems_eq, List.map_map, List.map_map]
    rfl
  have hcitations : (a.citations.map Citation.ofText).map Citation.toJson =
      ofItems (a.citations.map AskStore.Citation.toJson) := by
    rw [ofItems_eq, List.map_map, List.map_map]
    exact List.map_congr_left fun c _ => toJson_citation_ofText c
  rw [AskAnswer.toJson, AskAnswer.ofText, hfiles, hcitations]
  rfl

theorem toJson_message_ofText (m : AskStore.AskMessage) : (AskMessage.ofText m).toJson = m.toJson.map ofValue := by
  cases m with
  | user text => rfl
  | loading => rfl
  | assistant answer =>
    rw [AskMessage.ofText, AskMessage.toJson, toJson_answer_ofText]
    rfl

theorem isLoading_ofText (m : AskStore.AskMessage) : (AskMessage.ofText m).isLoading = m.isLoading := by
  cases m <;> rfl

/-- **Conversations of well-formed strings are written as in `Desktop/AskStore`.** -/
theorem toJson_ofText (c : AskStore.AskConversation) : (AskConversation.ofText c).toJson = ofValue c.toJson := by
  have hfilter : (c.messages.map AskMessage.ofText).filter (! ·.isLoading) =
      (c.messages.filter (! ·.isLoading)).map AskMessage.ofText := by
    rw [List.filter_map]
    exact congrArg _ (List.filter_congr fun m _ => congrArg (! ·) (isLoading_ofText m))
  have hmessages : ((c.messages.filter (! ·.isLoading)).map AskMessage.ofText).filterMap AskMessage.toJson =
      ofItems ((c.messages.filter (! ·.isLoading)).filterMap AskStore.AskMessage.toJson) := by
    rw [ofItems_eq, List.filterMap_map, List.map_filterMap]
    exact List.filterMap_congr fun m _ => toJson_message_ofText m
  rw [AskConversation.toJson, AskConversation.ofText, hfilter, hmessages]
  rfl

end WellFormed

end Notely.Desktop.SavedChats
