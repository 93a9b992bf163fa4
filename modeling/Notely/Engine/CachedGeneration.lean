import Notely.Engine.Analysis
import Notely.Lib.Table

/-! # Generating through the cache

`llm/cache.rs` under `generate_parsed` of `ai/mod.rs`. A generation is served from the cache if the request
has a row there, and stored if it was not; the parse and the one repair prompt stand above it. Accesses of
the cache fail silently; the inner provider, and which accesses succeed, are left open (`Answer`). The
digest of a request is a parameter: nothing depends on how it is computed, or on its having no collisions.

* `Holds.generate`: a stored text stays, as long as its key can be read.
* `retried_iff`: after an attempt ended in a parse error, another calls the provider again exactly if the
  cache lacks one of the two replies or cannot read it. -/

namespace Notely.Engine.CachedGeneration

open Notely.Lib Notely.Lib.Strings Notely.Engine.Analysis

/-! ### Requests -/

/-- `GenerationConfig`, its numbers as they are printed. -/
structure GenerationConfig where
  temperature : Option Text := none
  numCtx : Option Text := none
  maxTokens : Option Text := none
  deriving DecidableEq

/-- `GenerateRequest`, its schema as it is serialized. -/
structure GenerateRequest where
  model : Option Text := none
  system : Option Text := none
  prompt : Text
  format : Option Text := none
  config : GenerationConfig := {}
  think : Bool := false
  deriving DecidableEq

/-- `GenerateResponse`. -/
structure GenerateResponse where
  text : Text
  model : Text
  deriving DecidableEq

/-- The repair of a request: its prompt with the reminder appended. -/
def GenerateRequest.repair (r : GenerateRequest) : GenerateRequest :=
  { r with prompt := r.prompt ++ ("\n\nIMPORTANT: your previous reply was not valid JSON. Reply with ONLY the " ++
      "JSON object, no prose or code fences.").toList }

/-- `{:?}` of an optional number. -/
def debugOption : Option Text → Text
  | some n => "Some(".toList ++ n ++ ")".toList
  | none => "None".toList

/-- How a provider is configured: its default model, and the digest of its keys. -/
structure Keying where
  defaultModel : Text
  digest : Text → Text

/-- What `cache_key` hashes. -/
def canonical (K : Keying) (r : GenerateRequest) : Text :=
  ['\x1f'].intercalate
    ["v1".toList, r.model.getD K.defaultModel, r.system.getD [], r.prompt, r.format.getD [],
      debugOption r.config.temperature, debugOption r.config.numCtx, debugOption r.config.maxTokens,
      if r.think then "true".toList else "false".toList]

/-- `cache_key`. -/
def cacheKey (K : Keying) (r : GenerateRequest) : Text :=
  r.model.getD K.defaultModel ++ ":".toList ++ K.digest (canonical K r)

/-! ### Generations -/

/-- `LlmCache`: a response for each key. -/
abbrev LlmCache := List (Text × GenerateResponse)

/-- What is decided elsewhere for a generation: whether the cache can be read and written, and what the
inner provider replies if it is called. -/
structure Answer where
  read : Bool
  reply : Except LlmError GenerateResponse
  written : Bool

/-- What a generation ends with: its result, the cache, and the request the inner provider was called
with, if it was. -/
structure Generated where
  result : Except LlmError GenerateResponse
  cache : LlmCache
  called : Option GenerateRequest

/-- `get`. -/
def lookup (c : LlmCache) (key : Text) (read : Bool) : Option GenerateResponse :=
  if read then Table.get key c else none

/-- `put`. -/
def store (c : LlmCache) (key : Text) (response : GenerateResponse) (written : Bool) : LlmCache :=
  if written then Table.put key response c else c

/-- `CachingLlmProvider::generate`. -/
def generate (K : Keying) (c : LlmCache) (r : GenerateRequest) (a : Answer) : Generated :=
  match lookup c (cacheKey K r) a.read with
  | some response => ⟨.ok response, c, none⟩
  | none =>
    match a.reply with
    | .ok response => ⟨.ok response, store c (cacheKey K r) response a.written, some r⟩
    | .error e => ⟨.error e, c, some r⟩

/-- An attempt: a request, and what is decided for its generation and that of its repair. -/
structure Attempt where
  request : GenerateRequest
  first : Answer
  retry : Answer

/-- What an attempt ends with, and the calls of the inner provider it made. -/
structure Attempted (T : Type) where
  result : Except AiError T
  cache : LlmCache
  calls : List GenerateRequest

/-- `generate_parsed`, of a parser that fails with the text of an error. -/
def generateParsed {T : Type} (K : Keying) (parse : Text → Except Text T) (c : LlmCache) (a : Attempt) :
    Attempted T :=
  let g := generate K c a.request a.first
  match g.result with
  | .error e => ⟨.error (.llm e), g.cache, g.called.toList⟩
  | .ok response =>
    match parse response.text with
    | .ok v => ⟨.ok v, g.cache, g.called.toList⟩
    | .error _ =>
      let g' := generate K g.cache a.request.repair a.retry
      match g'.result with
      | .error e => ⟨.error (.llm e), g'.cache, g.called.toList ++ g'.called.toList⟩
      | .ok response =>
        ⟨(parse response.text).mapError .parse, g'.cache, g.called.toList ++ g'.called.toList⟩

/-- Generations of others, one after the other: attempts of other requests and of the same, whatever
they are parsed with, and questions. -/
def others (K : Keying) (c : LlmCache) (gs : List (GenerateRequest × Answer)) : LlmCache :=
  gs.foldl (fun c g => (generate K c g.1 g.2).cache) c

/-! ### What the cache holds -/

/-- The cache holds a text under the key of a request. -/
def Holds (K : Keying) (c : LlmCache) (r : GenerateRequest) (text : Text) : Prop :=
  (Table.get (cacheKey K r) c).map GenerateResponse.text = some text

/-- The cache answers a request. -/
def Served (K : Keying) (c : LlmCache) (r : GenerateRequest) (a : Answer) : Prop :=
  (lookup c (cacheKey K r) a.read).isSome

section Cache
variable {K : Keying} {c : LlmCache} {r r' : GenerateRequest} {a : Answer} {text : Text}

theorem generate_hit {response : GenerateResponse} (h : lookup c (cacheKey K r) a.read = some response) :
    generate K c r a = ⟨.ok response, c, none⟩ := by
  unfold generate
  rw [h]

theorem generate_miss (h : lookup c (cacheKey K r) a.read = none) : generate K c r a =
    match a.reply with
    | .ok response => ⟨.ok response, store c (cacheKey K r) response a.written, some r⟩
    | .error e => ⟨.error e, c, some r⟩ := by
  unfold generate
  rw [h]

/-- **The inner provider is called exactly if the cache does not answer.** -/
theorem called_isSome_iff : (generate K c r a).called.isSome ↔ ¬ Served K c r a := by
  unfold Served
  cases h : lookup c (cacheKey K r) a.read with
  | some response => simp [generate_hit h]
  | none =>
    rw [generate_miss h]
    cases a.reply <;> simp

/-- What a generation returned is held afterwards, unless it could not be written. -/
theorem holds_generate_self {response : GenerateResponse} (hw : a.written)
    (h : (generate K c r a).result = .ok response) : Holds K (generate K c r a).cache r response.text := by
  unfold Holds
  cases hl : lookup c (cacheKey K r) a.read with
  | some stored =>
    rw [generate_hit hl] at h ⊢
    cases h
    unfold lookup at hl
    split_ifs at hl
    rw [hl, Option.map_some]
  | none =>
    rw [generate_miss hl] at h ⊢
    cases hr : a.reply with
    | error e =>
      rw [hr] at h
      simp at h
    | ok reply =>
      rw [hr] at h
      cases h
      simp [store, hw]

/-- **A stored text stays, as long as its key can be read.** -/
theorem Holds.generate (h : Holds K c r text) (hread : a.read) : Holds K (generate K c r' a).cache r text := by
  cases hl : lookup c (cacheKey K r') a.read with
  | some stored => rwa [generate_hit hl]
  | none =>
    rw [generate_miss hl]
    cases a.reply with
    | error e => exact h
    | ok reply =>
      -- the key missed is another
      have hne : cacheKey K r ≠ cacheKey K r' := by
        intro he
        unfold lookup at hl
        rw [if_pos hread, ← he] at hl
        unfold Holds at h
        rw [hl] at h
        exact absurd h nofun
      unfold Holds store
      split_ifs
      · rwa [Table.get_put_of_ne hne]
      · exact h

theorem Holds.others {gs : List (GenerateRequest × Answer)} (h : Holds K c r text)
    (hread : ∀ g ∈ gs, g.2.read) : Holds K (others K c gs) r text := by
  induction gs generalizing c with
  | nil => exact h
  | cons g gs ih => exact ih (h.generate (hread g (by simp))) fun g' hg => hread g' (by simp [hg])

theorem Holds.served_iff (h : Holds K c r text) : Served K c r a ↔ a.read := by
  obtain ⟨response, hget, -⟩ := Option.map_eq_some_iff.mp h
  unfold Served lookup
  split_ifs with hr
  · simp [hget, hr]
  · simp [hr]

/-- What a generation returns that the cache answers. -/
theorem Holds.result (h : Holds K c r text) (hread : a.read) :
    ∃ response, (CachedGeneration.generate K c r a).result = .ok response ∧ response.text = text ∧
      (CachedGeneration.generate K c r a).cache = c := by
  obtain ⟨response, hget, ht⟩ := Option.map_eq_some_iff.mp h
  have hl : lookup c (cacheKey K r) a.read = some response := by rw [lookup, if_pos hread, hget]
  rw [generate_hit hl]
  exact ⟨response, rfl, ht, rfl⟩

end Cache

/-! ### Attempts -/

/-- The cache lacks the reply to a request or, that reply being malformed, the one to its repair; or it cannot
read it. -/
def Lacks {T : Type} (K : Keying) (parse : Text → Except Text T) (c : LlmCache) (a : Attempt) : Prop :=
  ¬ Served K c a.request a.first ∨
    ((∀ text, Holds K c a.request text → ∃ e, parse text = .error e) ∧ ¬ Served K c a.request.repair a.retry)

/-- Both accesses of the cache succeed. -/
def Answer.Works (a : Answer) : Prop := a.read ∧ a.written

section Attempt
variable {T : Type} {K : Keying} {parse : Text → Except Text T} {c : LlmCache} {a : Attempt}

/-- An attempt that ends in a parse error got two malformed replies. -/
theorem malformed_replies {d : Text} (h : (generateParsed K parse c a).result = .error (.parse d)) :
    ∃ first retry, (generate K c a.request a.first).result = .ok first ∧ (∃ e, parse first.text = .error e) ∧
      (generate K (generate K c a.request a.first).cache a.request.repair a.retry).result = .ok retry ∧
      (∃ e, parse retry.text = .error e) ∧
      (generateParsed K parse c a).cache =
        (generate K (generate K c a.request a.first).cache a.request.repair a.retry).cache := by
  unfold generateParsed at h ⊢
  cases h1 : (generate K c a.request a.first).result with
  | error e => simp [h1] at h
  | ok first =>
    cases hp : parse first.text with
    | ok v => simp [h1, hp] at h
    | error e =>
      cases h2 : (generate K (generate K c a.request a.first).cache a.request.repair a.retry).result with
      | error e' => simp [h1, hp, h2] at h
      | ok retry =>
        cases hp' : parse retry.text with
        | ok v => simp [h1, hp, h2, hp', Except.mapError] at h
        | error e' =>
          simp only [h1, hp, h2]
          exact ⟨first, retry, rfl, ⟨e, hp⟩, rfl, ⟨e', hp'⟩, trivial⟩

/-- **After an attempt ended in a parse error the cache holds both malformed replies.** -/
theorem holds_malformed {d : Text} (h : (generateParsed K parse c a).result = .error (.parse d))
    (hfirst : a.first.Works) (hretry : a.retry.Works) :
    ∃ first retry, Holds K (generateParsed K parse c a).cache a.request first ∧
      (∃ e, parse first = .error e) ∧
      Holds K (generateParsed K parse c a).cache a.request.repair retry ∧ ∃ e, parse retry = .error e := by
  obtain ⟨first, retry, h1, he1, h2, he2, hc⟩ := malformed_replies h
  rw [hc]
  have hheld := holds_generate_self hfirst.2 h1
  exact ⟨first.text, retry.text, hheld.generate hretry.1, he1, holds_generate_self hretry.2 h2, he2⟩

/-- An attempt calls the inner provider exactly if the cache lacks a reply it needs. -/
theorem calls_iff : (generateParsed K parse c a).calls ≠ [] ↔ Lacks K parse c a := by
  unfold Lacks
  by_cases hs : Served K c a.request a.first
  · obtain ⟨response, hl⟩ := Option.isSome_iff_exists.mp hs
    have hhold : ∀ text, Holds K c a.request text ↔ text = response.text := by
      intro text
      unfold lookup at hl
      split_ifs at hl
      unfold Holds
      rw [hl, Option.map_some, Option.some.injEq, eq_comm]
    have hg : generate K c a.request a.first = ⟨.ok response, c, none⟩ := generate_hit hl
    unfold generateParsed
    simp only [hg, hs, not_true_eq_false, false_or, hhold, forall_eq]
    cases hp : parse response.text with
    | ok v => simp
    | error e =>
      have hcall := called_isSome_iff (K := K) (c := c) (r := a.request.repair) (a := a.retry)
      simp only [Except.error.injEq, exists_eq', true_and, ← hcall]
      cases (generate K c a.request.repair a.retry).result <;>
        cases (generate K c a.request.repair a.retry).called <;> simp
  · have hcall : (generate K c a.request a.first).called.isSome := called_isSome_iff.mpr hs
    obtain ⟨r, hr⟩ := Option.isSome_iff_exists.mp hcall
    simp only [hs, not_false_eq_true, true_or, iff_true]
    unfold generateParsed
    simp only [hr]
    split
    · simp
    · split
      · simp
      · split <;> simp

/-- With a cache that works, after two malformed replies only a failing read leads to another call. -/
theorem lacks_iff {first retry : Text} (h1 : Holds K c a.request first) (he : ∃ e, parse first = .error e)
    (h2 : Holds K c a.request.repair retry) : Lacks K parse c a ↔ ¬ a.first.read ∨ ¬ a.retry.read := by
  have hmal : ∀ text, Holds K c a.request text → ∃ e, parse text = .error e := by
    intro text ht
    unfold Holds at h1 ht
    rw [h1, Option.some.injEq] at ht
    exact ht ▸ he
  unfold Lacks
  rw [h1.served_iff, h2.served_iff]
  exact ⟨Or.imp_right And.right, Or.imp_right fun h => ⟨hmal, h⟩⟩

end Attempt

/-- **After an attempt ended in a parse error**, another attempt of the request calls the provider again
exactly if the cache lacks a reply it needs; and while the cache can be written and read, it never does. -/
theorem retried_iff {T : Type} (K : Keying) (parse : Text → Except Text T) (c : LlmCache) (a b : Attempt)
    (gs : List (GenerateRequest × Answer)) (hsame : b.request = a.request) {d : Text}
    (hparse : (generateParsed K parse c a).result = .error (.parse d)) :
    ((generateParsed K parse (others K (generateParsed K parse c a).cache gs) b).calls ≠ [] ↔
      Lacks K parse (others K (generateParsed K parse c a).cache gs) b) ∧
    (a.first.Works → a.retry.Works → (∀ g ∈ gs, g.2.read) →
      ((generateParsed K parse (others K (generateParsed K parse c a).cache gs) b).calls ≠ [] ↔
        ¬ b.first.read ∨ ¬ b.retry.read)) := by
  refine ⟨calls_iff, fun hfirst hretry hgs => ?_⟩
  obtain ⟨first, retry, h1, he, h2, -⟩ := holds_malformed hparse hfirst hretry
  rw [calls_iff]
  exact lacks_iff (hsame ▸ h1.others hgs) he (hsame ▸ h2.others hgs)

/-- Everything works, and the model replies with a text. -/
def replies (text : Text) : Answer := ⟨true, .ok ⟨text, []⟩, true⟩

/-- An attempt to which the model replies with texts of which none is empty. -/
def malformedTwice : Attempt := ⟨{ prompt := ['p'] }, replies ['x'], replies ['y']⟩

/-- Only the empty text is well formed. -/
def parseEmpty (text : Text) : Except Text Unit := if text = [] then .ok () else .error ['e']

/-- A digest that tells requests of different length apart. -/
def byLength : Keying := ⟨[], fun s => Nat.toDigits 10 s.length⟩

set_option maxRecDepth 8000 in
/-- Where the cache is empty, the replies are what is parsed. -/
theorem malformedTwice_fails : (generateParsed byLength parseEmpty [] malformedTwice).result =
    .error (.parse ['e']) := by
  have hne : cacheKey byLength malformedTwice.request.repair ≠ cacheKey byLength malformedTwice.request := by
    decide
  have h1 : generate byLength [] malformedTwice.request malformedTwice.first =
      ⟨.ok ⟨['x'], []⟩, store [] (cacheKey byLength malformedTwice.request) ⟨['x'], []⟩ true,
        some malformedTwice.request⟩ := generate_miss rfl
  have hmiss : lookup (store [] (cacheKey byLength malformedTwice.request) ⟨['x'], []⟩ true)
      (cacheKey byLength malformedTwice.request.repair) true = none := by
    rw [lookup, if_pos rfl, store, if_pos rfl, Table.get_put_of_ne hne, Table.get_nil]
  have h2 := generate_miss (K := byLength) (r := malformedTwice.request.repair) (a := malformedTwice.retry) hmiss
  unfold generateParsed
  simp only [h1, h2]
  rfl

/-- The same request, its row not read. -/
def unread : Attempt := ⟨malformedTwice.request, ⟨false, .ok ⟨[], []⟩, true⟩, malformedTwice.retry⟩

/-- A well-formed reply is asked for after a read failed. -/
theorem retried_after_read_fails :
    (generateParsed byLength parseEmpty
      (others byLength (generateParsed byLength parseEmpty [] malformedTwice).cache []) unread).calls ≠ [] := by
  have hiff := (retried_iff byLength parseEmpty [] malformedTwice unread [] rfl malformedTwice_fails).2
  exact (hiff ⟨rfl, rfl⟩ ⟨rfl, rfl⟩ (by simp)).mpr (Or.inl nofun)

/-- The same request, to which the model now replies well. -/
def improved : Attempt := ⟨malformedTwice.request, replies [], malformedTwice.retry⟩

/-- **The model would now reply well, and is not asked.** -/
theorem malformed_kept : ¬ ∀ {T : Type} (K : Keying) (parse : Text → Except Text T) (c : LlmCache)
    (a b : Attempt) (gs : List (GenerateRequest × Answer)), b.request = a.request → ∀ d,
    (generateParsed K parse c a).result = .error (.parse d) →
      (generateParsed K parse (others K (generateParsed K parse c a).cache gs) b).calls ≠ [] := by
  intro h
  have hcalls := h byLength parseEmpty [] malformedTwice improved [] rfl
    _ malformedTwice_fails
  obtain ⟨first, retry, h1, he, h2, -⟩ := holds_malformed malformedTwice_fails ⟨rfl, rfl⟩ ⟨rfl, rfl⟩
  rw [calls_iff] at hcalls
  have hreads := (lacks_iff (a := improved) h1 he h2).mp hcalls
  simp [improved, replies, malformedTwice] at hreads

end Notely.Engine.CachedGeneration
