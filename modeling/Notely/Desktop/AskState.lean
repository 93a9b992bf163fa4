import Notely.Desktop.AskStore
import Notely.Lib.Lts

/-! # Ask: conversations, sent, restored and deleted

`AskController` of `features/ask/ask_state.dart` over the store of `Desktop/AskStore`. Dart runs one handler at a time,
so a step is what happens between two `await`s; the suspended calls are the list `tasks`, and they go on in any order.
A conversation is an object: `send` keeps the one it asks about over its `await`, whatever becomes of the list, so that
every object has a number. What the panel shows besides (`isOpen`, `showHistory`) is left out. -/

namespace Notely.Desktop.AskState

open Notely.Lib.Strings Notely.Desktop.Dart Notely.Desktop.AskStore

/-! ### Titles and ids -/

/-- What `\s` matches: all that `trim` removes, except U+0085. -/
def regexSpace (c : Char) : Bool := whitespace c && c != '\x85'

/-- `replaceAll(RegExp(r'\s+'), ' ')`, from within white space or not. -/
def collapse : Bool → Text → Text
  | _, [] => []
  | within, c :: s =>
    if regexSpace c then if within then collapse true s else ' ' :: collapse true s else c :: collapse false s

/-- `_titleFrom`. -/
def titleFrom (query : Text) : Text :=
  let t := collapse false (trim query)
  if length t > 44 then trimRight (firstUnits 44 t) ++ ['…'] else t

/-- `_newId`, after `_seq++`. -/
def newId (micros seq : ℕ) : Text := digits micros ++ '-' :: digits seq

/-! ### The controller -/

/-- A suspended call. -/
inductive Task
  /-- `restore`, in `await SharedPreferences.getInstance()` of `load`. -/
  | loading
  /-- `restore`, with what `load` returns. -/
  | restoring (loaded : List AskConversation)
  /-- `send`, in `await _service.ask(…)`, with its conversation: the object and its `id`. -/
  | asking (conv : ℕ) (id query : Text)
  /-- `_persist`, in `await SharedPreferences.getInstance()` of `save`. -/
  | saving
  deriving DecidableEq

/-- A conversation with the number of the object. -/
abbrev AskObject := ℕ × AskConversation

/-- `AskController`, its suspended calls, and the preferences. -/
structure AskController where
  all : List AskObject := []
  stashRoot : Option Text := none
  activeId : Option Text := none
  busy : Bool := false
  seq : ℕ := 0
  tasks : List Task := []
  prefs : Stored
  objects : ℕ := 0

/-- What the UI does, and what a suspended call goes on with. -/
inductive Action
  | restore
  | send (query stashRoot : Text) (micros : ℕ) (millis : Int64)
  | deleteChat (id : Text)
  | newChat
  | openChat (id : Text)
  | setStash (root : Option Text)
  /-- The `i`-th call gets the preferences, or they throw. -/
  | prefs (i : ℕ) (ok : Bool)
  /-- The `i`-th call, a `restore`, goes on. -/
  | loaded (i : ℕ)
  /-- The service answers the `i`-th call, or throws. -/
  | answered (i : ℕ) (answer : Option AskAnswer) (millis : Int64)

/-- The answer that stands for a service that throws. -/
def somethingWrong : AskAnswer := ⟨"Something went wrong while searching your notes.".toList, [], []⟩

/-- `send` adds the question and a placeholder. -/
def withQuestion (q : Text) (c : AskConversation) : AskConversation :=
  { c with messages := c.messages ++ [.user q, .loading] }

/-- `send` puts the answer in the place of the placeholder. -/
def withAnswer (a : AskAnswer) (millis : Int64) (q : Text) (c : AskConversation) : AskConversation :=
  { c with
    messages := (if c.messages.getLast? = some .loading then c.messages.dropLast else c.messages) ++ [.assistant a]
    updatedAt := millis
    title := if c.title = [] then titleFrom q else c.title }

/-- `compareTo` of two texts goes by their code units. -/
def codeUnits (s : Text) : List ℕ :=
  s.flatMap fun c =>
    if c.toNat < 0x10000 then [c.toNat]
    else [0xd800 + (c.toNat - 0x10000) / 0x400, 0xdc00 + (c.toNat - 0x10000) % 0x400]

/-- The order of `history`: the latest first, then by id, the greatest first. -/
def comesFirst (a b : AskConversation) : Bool :=
  b.updatedAt < a.updatedAt || (a.updatedAt == b.updatedAt && ! (codeUnits a.id).lex (codeUnits b.id) (· < ·))

namespace AskController

variable (c : AskController)

/-- `history`. -/
def history : List AskConversation :=
  ((c.all.map Prod.snd).filter fun conv => c.stashRoot = some conv.stashRoot).mergeSort comesFirst

/-- `_active`. -/
def active : Option AskObject := c.all.find? fun o => c.activeId = some o.2.id

/-- A call is suspended. -/
def suspend (t : Task) : AskController := { c with tasks := c.tasks ++ [t] }

/-- An object is changed, wherever it is. -/
def update (ref : ℕ) (f : AskConversation → AskConversation) : AskController :=
  { c with all := c.all.map fun o => if o.1 = ref then (o.1, f o.2) else o }

/-- `send`, once it has its conversation, up to the service. -/
def ask (o : AskObject) (q : Text) : AskController :=
  { c.update o.1 (withQuestion q) with busy := true }.suspend (.asking o.1 o.2.id q)

/-- The conversation that `send` starts. -/
def newConversation (q stashRoot : Text) (micros : ℕ) (millis : Int64) : AskConversation :=
  ⟨newId micros (c.seq + 1), stashRoot, titleFrom q, millis, []⟩

/-- `send` starts a conversation. -/
def create (conv : AskConversation) : AskController :=
  { c with
    all := c.all ++ [(c.objects, conv)]
    activeId := some conv.id
    seq := c.seq + 1
    objects := c.objects + 1 }

/-- The conversation that `send` continues. -/
def continued (stashRoot : Text) : Option AskObject := c.active.filter fun o => o.2.stashRoot = stashRoot

/-- `send` does nothing. -/
def Ignores (query : Text) : Prop := trim query = [] ∨ c.busy = true

instance (query : Text) : Decidable (c.Ignores query) := inferInstanceAs (Decidable (_ ∨ _))

/-- `send`, up to the service. -/
def send (query stashRoot : Text) (micros : ℕ) (millis : Int64) : AskController :=
  if c.Ignores query then c
  else
    match c.continued stashRoot with
    | some o => c.ask o (trim query)
    | none =>
      let conv := c.newConversation (trim query) stashRoot micros millis
      (c.create conv).ask (c.objects, conv) (trim query)

/-- `send`, from the service on. -/
def answered (conv : ℕ) (query : Text) (answer : Option AskAnswer) (millis : Int64) : AskController :=
  { c.update conv (withAnswer (answer.getD somethingWrong) millis query) with busy := false }.suspend .saving

/-- `deleteChat`, up to the store. -/
def deleteChat (id : Text) : AskController :=
  { c with
    all := c.all.filter fun o => o.2.id ≠ id
    activeId := if c.activeId = some id then none else c.activeId }.suspend .saving

/-- The objects that `load` makes. -/
def objectsOf (loaded : List AskConversation) : List AskObject :=
  (List.range' c.objects loaded.length).zip loaded

/-- `restore`, from the store on: the list is replaced. -/
def restored (loaded : List AskConversation) : AskController :=
  let c := { c with all := c.objectsOf loaded, objects := c.objects + loaded.length }
  if c.stashRoot.isSome ∧ c.activeId = none then { c with activeId := c.history.head?.map (·.id) } else c

/-- `setStash`. -/
def setStash (root : Option Text) : AskController :=
  if c.stashRoot = root then c
  else
    let c := { c with stashRoot := root }
    { c with activeId := c.history.head?.map (·.id) }

/-! ### What is replaced -/

/-- `restore` replaces the list, and may make a conversation of it the active one. -/
theorem restored_eq (loaded : List AskConversation) : ∃ activeId, c.restored loaded =
    { c with all := c.objectsOf loaded, objects := c.objects + loaded.length, activeId := activeId } := by
  unfold restored
  dsimp only
  split_ifs <;> exact ⟨_, rfl⟩

/-- `setStash` chooses among the conversations. -/
theorem setStash_eq (root : Option Text) : ∃ stashRoot activeId, c.setStash root =
    { c with stashRoot := stashRoot, activeId := activeId } := by
  unfold setStash
  split_ifs <;> exact ⟨_, _, rfl⟩

theorem objectsOf_snd (loaded : List AskConversation) : (c.objectsOf loaded).map Prod.snd = loaded :=
  List.map_snd_zip (by simp)

theorem objectsOf_fst (loaded : List AskConversation) :
    (c.objectsOf loaded).map Prod.fst = List.range' c.objects loaded.length :=
  List.map_fst_zip (by simp)

/-! ### Steps -/

/-- A call that waits for the preferences goes on; one that throws is given up. -/
def gotPrefs (ok : Bool) : Task → Option AskController
  | .loading => some (if ok then c.suspend (.restoring (load c.prefs)) else c)
  | .saving => some (if ok then { c with prefs := save (c.all.map Prod.snd) } else c)
  | .restoring _ | .asking _ _ _ => none

/-- The `i`-th call is no longer suspended. -/
def leave (i : ℕ) : AskController := { c with tasks := c.tasks.eraseIdx i }

def step : Action → Option AskController
  | .restore => some (c.suspend .loading)
  | .send query stashRoot micros millis => some (c.send query stashRoot micros millis)
  | .deleteChat id => some (c.deleteChat id)
  | .newChat => some { c with activeId := none }
  | .openChat id => some { c with activeId := some id }
  | .setStash root => some (c.setStash root)
  | .prefs i ok => c.tasks[i]?.bind ((c.leave i).gotPrefs ok)
  | .loaded i =>
    match c.tasks[i]? with
    | some (.restoring loaded) => some ((c.leave i).restored loaded)
    | _ => none
  | .answered i answer millis =>
    match c.tasks[i]? with
    | some (.asking conv _ query) => some ((c.leave i).answered conv query answer millis)
    | _ => none

end AskController

end Notely.Desktop.AskState
