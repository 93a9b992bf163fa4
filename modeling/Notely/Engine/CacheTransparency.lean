import Notely.Engine.CachedGeneration

/-! # What the cache may answer

A cache is transparent if every reply it gives is the one the inner provider would give to that very request.
The key of a request is the digest of its fields, set one after the other with a separator between them; the
system prompt, absent or empty, and the prompt may hold the separator themselves.

* `cacheKey_eq_iff`: when two requests have one key.
* `transparent_iff`: the requests for which the cache is transparent. -/

namespace Notely.Engine.CacheTransparency

open Notely.Lib Notely.Lib.Strings Notely.Engine.Analysis Notely.Engine.CachedGeneration

/-- A request with its model resolved. -/
def resolved (K : Keying) (r : GenerateRequest) : GenerateRequest :=
  { r with model := some (r.model.getD K.defaultModel) }

/-- The separator of `cache_key`. -/
def sep : Char := '\x1f'

/-- The schema and the numbers are as they are printed: a serialized schema is not empty, and what is printed
escapes control characters. -/
structure Printed (r : GenerateRequest) : Prop where
  schema : r.format ≠ some []
  format : ∀ s, r.format = some s → sep ∉ s
  temperature : ∀ s, r.config.temperature = some s → sep ∉ s
  numCtx : ∀ s, r.config.numCtx = some s → sep ∉ s
  maxTokens : ∀ s, r.config.maxTokens = some s → sep ∉ s

/-- The digest is 32 hexadecimal digits, and has no collisions among the requests. -/
structure Collisionless (K : Keying) (rs : List GenerateRequest) : Prop where
  length : ∀ s, (K.digest s).length = 32
  apart : ∀ r ∈ rs, ∀ r' ∈ rs, K.digest (canonical K r) = K.digest (canonical K r') → canonical K r = canonical K r'

/-- The system prompt and the prompt as `cache_key` sets them: an absent system prompt as an empty one. -/
def joined (r : GenerateRequest) : Text := r.system.getD [] ++ sep :: r.prompt

/-- The requests agree in the model, the schema, the options and `think`. -/
def Alike (K : Keying) (r r' : GenerateRequest) : Prop :=
  r.model.getD K.defaultModel = r'.model.getD K.defaultModel ∧ r.format = r'.format ∧ r.config = r'.config ∧
    r.think = r'.think

/-- **No two requests are confused**: those that are alike otherwise and have one text of system prompt and prompt
have one system prompt and one prompt. -/
def Unconfused (K : Keying) (rs : List GenerateRequest) : Prop :=
  ∀ r ∈ rs, ∀ r' ∈ rs, Alike K r r' → joined r = joined r' → r.system = r'.system ∧ r.prompt = r'.prompt

/-! ### Keys -/

section Keys
variable {K : Keying} {rs : List GenerateRequest} {r r' : GenerateRequest}

/-- The fields of the key, the last ones set apart. -/
theorem canonical_eq : canonical K r =
    ((((("v1".toList ++ sep :: r.model.getD K.defaultModel ++ sep :: joined r) ++ sep :: r.format.getD []) ++
      sep :: debugOption r.config.temperature) ++ sep :: debugOption r.config.numCtx) ++
        sep :: debugOption r.config.maxTokens) ++ sep :: (if r.think then "true".toList else "false".toList) := by
  simp only [canonical, joined, sep, List.intercalate, List.intersperse, List.flatten_cons, List.flatten_nil,
    List.append_assoc, List.cons_append, List.nil_append, List.append_nil]

theorem debugOption_inj {o o' : Option Text} (h : debugOption o = debugOption o') : o = o' := by
  have hhead := congrArg List.head? h
  cases o with
  | none =>
    cases o' with
    | none => rfl
    | some n' => cases hhead
  | some n =>
    cases o' with
    | none => cases hhead
    | some n' =>
      unfold debugOption at h
      exact congrArg some (List.append_cancel_left (List.append_cancel_right h))

theorem config_inj {c c' : GenerationConfig} (htemp : debugOption c.temperature = debugOption c'.temperature)
    (hctx : debugOption c.numCtx = debugOption c'.numCtx) (hmax : debugOption c.maxTokens = debugOption c'.maxTokens) :
    c = c' := by
  cases c
  cases c'
  exact congr (congr (congrArg GenerationConfig.mk (debugOption_inj htemp)) (debugOption_inj hctx))
    (debugOption_inj hmax)

theorem think_inj {b b' : Bool}
    (h : (if b then "true".toList else "false".toList) = (if b' then "true".toList else "false".toList)) : b = b' := by
  have hhead := congrArg List.head? h
  cases b <;> cases b' <;> first | rfl | cases hhead

theorem sep_notMem_debugOption {o : Option Text} (h : ∀ s, o = some s → sep ∉ s) : sep ∉ debugOption o := by
  cases o with
  | none => decide
  | some n =>
    have hn : sep ∉ n := h n rfl
    have hopen : sep ∉ "Some(".toList := by decide
    have hclose : sep ∉ ")".toList := by decide
    unfold debugOption
    rw [List.mem_append, List.mem_append]
    exact fun h => h.elim (fun h => h.elim hopen hn) hclose

theorem sep_notMem_think {b : Bool} : sep ∉ (if b then "true".toList else "false".toList) := by
  cases b <;> decide

theorem sep_notMem_format (h : Printed r) : sep ∉ r.format.getD [] := by
  cases hf : r.format with
  | none => simp
  | some s => exact h.format s hf

theorem format_inj (h : Printed r) (h' : Printed r') (heq : r.format.getD [] = r'.format.getD []) :
    r.format = r'.format := by
  cases hf : r.format with
  | none =>
    cases hf' : r'.format with
    | none => rfl
    | some s' =>
      rw [hf, hf'] at heq
      obtain rfl : [] = s' := heq
      exact absurd hf' h'.schema
  | some s =>
    cases hf' : r'.format with
    | none =>
      rw [hf, hf'] at heq
      obtain rfl : s = [] := heq
      exact absurd hf h.schema
    | some s' =>
      rw [hf, hf'] at heq
      exact congrArg some heq

/-- **What is hashed tells everything** but where the system prompt ends. -/
theorem canonical_inj (h : Printed r) (h' : Printed r')
    (hmodel : r.model.getD K.defaultModel = r'.model.getD K.defaultModel)
    (heq : canonical K r = canonical K r') : Alike K r r' ∧ joined r = joined r' := by
  rw [canonical_eq, canonical_eq] at heq
  obtain ⟨heq, hthink⟩ := append_sep_inj sep_notMem_think sep_notMem_think heq
  obtain ⟨heq, hmax⟩ :=
    append_sep_inj (sep_notMem_debugOption h.maxTokens) (sep_notMem_debugOption h'.maxTokens) heq
  obtain ⟨heq, hctx⟩ := append_sep_inj (sep_notMem_debugOption h.numCtx) (sep_notMem_debugOption h'.numCtx) heq
  obtain ⟨heq, htemp⟩ :=
    append_sep_inj (sep_notMem_debugOption h.temperature) (sep_notMem_debugOption h'.temperature) heq
  obtain ⟨heq, hformat⟩ := append_sep_inj (sep_notMem_format h) (sep_notMem_format h') heq
  rw [hmodel] at heq
  have hjoined : joined r = joined r' := (List.cons.inj (List.append_cancel_left heq)).2
  have hconfig : r.config = r'.config := config_inj htemp hctx hmax
  exact ⟨⟨hmodel, format_inj h h' hformat, hconfig, think_inj hthink⟩, hjoined⟩

/-- **Two requests have one key** exactly if they are alike and have one text of system prompt and prompt. -/
theorem cacheKey_eq_iff (hc : Collisionless K rs) (hr : r ∈ rs) (hr' : r' ∈ rs) (h : Printed r) (h' : Printed r') :
    cacheKey K r = cacheKey K r' ↔ Alike K r r' ∧ joined r = joined r' := by
  constructor
  · intro heq
    unfold cacheKey at heq
    have hlen : (K.digest (canonical K r)).length = (K.digest (canonical K r')).length := by
      rw [hc.length, hc.length]
    obtain ⟨hmodel, hdigest⟩ := List.append_inj' heq hlen
    exact canonical_inj h h' (List.append_cancel_right hmodel) (hc.apart r hr r' hr' hdigest)
  · rintro ⟨⟨hmodel, hformat, hconfig, hthink⟩, hjoined⟩
    have hcanonical : canonical K r = canonical K r' := by
      rw [canonical_eq, canonical_eq, hmodel, hjoined, hformat, hconfig, hthink]
    unfold cacheKey
    rw [hmodel, hcanonical]

theorem resolved_eq_iff : resolved K r = resolved K r' ↔
    Alike K r r' ∧ r.system = r'.system ∧ r.prompt = r'.prompt := by
  unfold resolved Alike
  simp only [GenerateRequest.mk.injEq, Option.some.injEq]
  tauto

/-- Two requests share a key only when they are the same. -/
def KeysApart (K : Keying) (rs : List GenerateRequest) : Prop :=
  ∀ r ∈ rs, ∀ r' ∈ rs, cacheKey K r = cacheKey K r' → resolved K r = resolved K r'

theorem keysApart_iff (hc : Collisionless K rs) (hp : ∀ r ∈ rs, Printed r) :
    KeysApart K rs ↔ Unconfused K rs := by
  constructor
  · intro h r hr r' hr' halike hjoined
    have hkey := (cacheKey_eq_iff hc hr hr' (hp r hr) (hp r' hr')).mpr ⟨halike, hjoined⟩
    exact (resolved_eq_iff.mp (h r hr r' hr' hkey)).2
  · intro h r hr r' hr' hkey
    obtain ⟨halike, hjoined⟩ := (cacheKey_eq_iff hc hr hr' (hp r hr) (hp r' hr')).mp hkey
    exact resolved_eq_iff.mpr ⟨halike, h r hr r' hr' halike hjoined⟩

end Keys

/-! ### Transparency -/

/-- An inner provider that is a function of the resolved request. -/
abbrev Inner := GenerateRequest → Except LlmError GenerateResponse

/-- A call of `generate`, and which accesses of the cache succeed. -/
structure Call where
  request : GenerateRequest
  read : Bool
  written : Bool

/-- A call answered by the inner provider. -/
def Call.asked (K : Keying) (inner : Inner) (c : Call) : GenerateRequest × Answer :=
  (c.request, ⟨c.read, inner (resolved K c.request), c.written⟩)

/-- The reply to a call after others, the cache empty at first. -/
def reply (K : Keying) (inner : Inner) (before : List Call) (c : Call) : Except LlmError GenerateResponse :=
  (generate K (others K [] (before.map (Call.asked K inner))) c.request (c.asked K inner).2).result

/-- **The cache is transparent for the requests**: whatever the inner provider is, in every sequence of calls
each reply that succeeds is the one it gives to that very request. -/
def Transparent (K : Keying) (rs : List GenerateRequest) : Prop :=
  ∀ (inner : Inner) (before : List Call) (c : Call), (∀ b ∈ before, b.request ∈ rs) → c.request ∈ rs →
    ∀ response, reply K inner before c = .ok response → inner (resolved K c.request) = .ok response

section Transparency
variable {K : Keying} {rs : List GenerateRequest} {inner : Inner} {cache : LlmCache} {r : GenerateRequest}
  {a : Answer} {response : GenerateResponse}

/-- Every row came from one of the requests. -/
def Sourced (K : Keying) (inner : Inner) (rs : List GenerateRequest) (cache : LlmCache) : Prop :=
  ∀ key response, Table.get key cache = some response →
    ∃ r ∈ rs, cacheKey K r = key ∧ inner (resolved K r) = .ok response

theorem Sourced.generate (h : Sourced K inner rs cache) (hr : r ∈ rs) (ha : a.reply = inner (resolved K r)) :
    Sourced K inner rs (generate K cache r a).cache := by
  cases hl : lookup cache (cacheKey K r) a.read with
  | some stored => rwa [generate_hit hl]
  | none =>
    rw [generate_miss hl]
    cases hreply : a.reply with
    | error e => exact h
    | ok response =>
      intro key response' hget
      unfold store at hget
      split_ifs at hget
      · by_cases hkey : key = cacheKey K r
        · subst hkey
          rw [Table.get_put_self] at hget
          exact ⟨r, hr, rfl, by rw [← ha, hreply, Option.some.inj hget]⟩
        · rw [Table.get_put_of_ne hkey] at hget
          exact h key response' hget
      · exact h key response' hget

theorem sourced_others {before : List Call} (h : Sourced K inner rs cache) (hb : ∀ b ∈ before, b.request ∈ rs) :
    Sourced K inner rs (others K cache (before.map (Call.asked K inner))) := by
  induction before generalizing cache with
  | nil => exact h
  | cons b before ih =>
    exact ih (h.generate (a := (b.asked K inner).2) (hb b List.mem_cons_self) rfl)
      fun b' hb' => hb b' (List.mem_cons_of_mem _ hb')

/-- A row that answers a request came from it, if the keys are apart. -/
theorem transparent_of_apart (h : KeysApart K rs) : Transparent K rs := by
  intro inner before c hbefore hc response hreply
  have hsourced : Sourced K inner rs (others K [] (before.map (Call.asked K inner))) :=
    sourced_others (fun key response hget => by simp at hget) hbefore
  unfold reply at hreply
  cases hl : lookup (others K [] (before.map (Call.asked K inner))) (cacheKey K c.request) (c.asked K inner).2.read with
  | some stored =>
    rw [generate_hit hl] at hreply
    have hget := hl
    unfold lookup at hget
    split_ifs at hget
    obtain ⟨r, hr, hkey, hinner⟩ := hsourced _ _ hget
    rw [← h r hr c.request hc hkey, hinner, Except.ok.inj hreply]
  | none =>
    rw [generate_miss hl] at hreply
    cases hi : inner (resolved K c.request) with
    | error e => simp [Call.asked, hi] at hreply
    | ok response' => simpa [Call.asked, hi] using hreply

/-- Of two requests with one key, the second is served what was replied to the first. -/
theorem apart_of_transparent (h : Transparent K rs) : KeysApart K rs := by
  intro r hr r' hr' hkey
  by_contra hne
  let inner : Inner := fun q => .ok ⟨if q = resolved K r then ['a'] else ['b'], []⟩
  have hfirst : inner (resolved K r) = .ok ⟨['a'], []⟩ := by simp [inner]
  have hsecond : inner (resolved K r') = .ok ⟨['b'], []⟩ := by simp [inner, Ne.symm hne]
  have hcache : others K [] [(Call.mk r true true).asked K inner] =
      Table.put (cacheKey K r) ⟨['a'], []⟩ [] := by
    have hmiss : lookup [] (cacheKey K r) true = none := rfl
    change (generate K [] r ⟨true, inner (resolved K r), true⟩).cache = _
    rw [generate_miss hmiss, hfirst]
    rfl
  have hreply : reply K inner [⟨r, true, true⟩] ⟨r', true, true⟩ = .ok ⟨['a'], []⟩ := by
    have hhit : lookup (Table.put (cacheKey K r) ⟨['a'], []⟩ []) (cacheKey K r') true = some ⟨['a'], []⟩ := by
      rw [← hkey]
      exact Table.get_put_self
    unfold reply
    rw [List.map_singleton, hcache]
    exact congrArg Generated.result (generate_hit hhit)
  have hbad := h inner [⟨r, true, true⟩] ⟨r', true, true⟩ (by simp [hr]) hr' _ hreply
  rw [hsecond] at hbad
  simp at hbad

end Transparency

/-- **The cache is transparent, and its keys are apart, exactly for requests that are not confused.** -/
theorem transparent_iff (K : Keying) (rs : List GenerateRequest) (hprinted : ∀ r ∈ rs, Printed r)
    (hdigest : Collisionless K rs) :
    (Transparent K rs ↔ Unconfused K rs) ∧ (KeysApart K rs ↔ Unconfused K rs) := by
  have hkeys := keysApart_iff hdigest hprinted
  exact ⟨⟨fun h => hkeys.mp (apart_of_transparent h), fun h => transparent_of_apart (hkeys.mpr h)⟩, hkeys⟩

/-- A request with nothing but a prompt. -/
def plain (prompt : Text) : GenerateRequest := { prompt := prompt }

theorem printed_of_bare {r : GenerateRequest} (hformat : r.format = none) (hconfig : r.config = {}) : Printed r := by
  constructor <;> simp [hformat, hconfig]

/-- A digest that tells texts of odd and even length apart. -/
def byParity : Keying := ⟨['m'], fun s => List.replicate 32 (if s.length % 2 = 0 then '0' else '1')⟩

/-- Two prompts of different length. -/
theorem transparent_prompts : Transparent byParity [plain ['a'], plain ['a', 'b']] := by
  have hprinted : ∀ r ∈ [plain ['a'], plain ['a', 'b']], Printed r := by
    simp only [List.mem_cons, List.not_mem_nil, or_false, forall_eq_or_imp, forall_eq]
    exact ⟨printed_of_bare rfl rfl, printed_of_bare rfl rfl⟩
  have hapart : Collisionless byParity [plain ['a'], plain ['a', 'b']] := by
    refine ⟨fun s => List.length_replicate, ?_⟩
    decide +kernel
  refine (transparent_iff byParity _ hprinted hapart).1.mpr ?_
  unfold Unconfused Alike
  decide

/-- A request without a system prompt, and one with an empty system prompt. -/
def absentAndEmpty : List GenerateRequest := [plain ['p'], { plain ['p'] with system := some [] }]

/-- **A request with an empty system prompt is served the reply to one without.** -/
theorem absent_as_empty : ¬ ∀ (K : Keying) (rs : List GenerateRequest), (∀ r ∈ rs, Printed r) → Collisionless K rs →
    Transparent K rs ∧ KeysApart K rs := by
  intro h
  have hprinted : ∀ r ∈ absentAndEmpty, Printed r := by
    simp only [absentAndEmpty, List.mem_cons, List.not_mem_nil, or_false, forall_eq_or_imp, forall_eq]
    exact ⟨printed_of_bare rfl rfl, printed_of_bare rfl rfl⟩
  have hapart : Collisionless byParity absentAndEmpty := by
    refine ⟨fun s => List.length_replicate, ?_⟩
    decide +kernel
  have hkeys := (h byParity absentAndEmpty hprinted hapart).2
  have hsame : resolved byParity (plain ['p']) = resolved byParity { plain ['p'] with system := some [] } := by
    apply hkeys
    · simp [absentAndEmpty]
    · simp [absentAndEmpty]
    · decide +kernel
  simp [resolved, plain] at hsame

end Notely.Engine.CacheTransparency
