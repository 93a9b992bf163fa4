import Notely.Desktop.Dart
import Notely.Lib.Utf8

/-! # The client's line framing

`EngineClient._onData` of `ipc/engine_client.dart` against the writer task of `ipc/server.rs`: the engine
writes the UTF-8 of each line and a newline, the socket cuts the bytes into chunks as it likes, and the
client decodes each chunk by itself, appends the text to `_readBuffer` and hands every complete line,
trimmed, to `_handleLine`.

* `received_eq`: cutting lines off as they come is the same as cutting the whole text.
* `Fates`, `exists_fates`: what each character becomes. A character cut in two is replaced by two or more U+FFFD,
  a U+FEFF that starts a chunk is dropped, every other character arrives.
* `handled_iff`: so the client sees the engine's lines exactly if no chunk ends inside a character and
  the lines, with the U+FEFFs that start a chunk left out, survive the trimming. -/

namespace Notely.Desktop.Framing

open Notely.Lib.Strings Notely.Lib.Utf8 Notely.Desktop.Dart

/-! ### The client -/

/-- `_readBuffer`, and the lines given to `_handleLine` so far. -/
structure Inbound where
  readBuffer : Text
  handled : List Text
  deriving DecidableEq

/-- The lines the loop of `_onData` takes off the buffer, and what it leaves. -/
def drain (buffer : Text) : List Text × Text :=
  if '\n' ∈ buffer then
    let line := trim (buffer.takeWhile (· ≠ '\n'))
    let (lines, rest) := drain ((buffer.dropWhile (· ≠ '\n')).drop 1)
    (if line = [] then lines else line :: lines, rest)
  else ([], buffer)
termination_by buffer.length
decreasing_by
  have hpos : 0 < buffer.length := List.length_pos_of_mem ‹_›
  have hle := (List.dropWhile_sublist (fun c : Char => decide (c ≠ '\n')) (l := buffer)).length_le
  simp only [List.length_drop]
  omega

/-- `_onData`. -/
def Inbound.onData (s : Inbound) (chunk : List ℕ) : Inbound :=
  let (lines, rest) := drain (s.readBuffer ++ decode chunk)
  { readBuffer := rest, handled := s.handled ++ lines }

/-- A connection just made. -/
def Inbound.new : Inbound := ⟨[], []⟩

/-- The connection after some chunks. -/
def received (chunks : List (List ℕ)) : Inbound := chunks.foldl Inbound.onData .new

/-! ### The engine -/

/-- A line the writer task sends. -/
structure Line where
  text : Text
  noNewline : '\n' ∉ text

/-- The text of the lines, each ended. -/
def ended (lines : List Line) : Text := lines.flatMap fun l => l.text ++ ['\n']

/-- The bytes the writer task puts on the socket. -/
def wire (lines : List Line) : List ℕ := encode (ended lines)

/-- The chunks in which the socket delivers some bytes. -/
structure Chunks (bytes : List ℕ) where
  chunks : List (List ℕ)
  nonempty : ∀ c ∈ chunks, c ≠ []
  flatten_eq : chunks.flatten = bytes

/-! ### Draining -/

/-- What one line gives `_handleLine`. -/
def handledLine (line : Text) : List Text := if trim line = [] then [] else [trim line]

theorem drain_residue {buffer : Text} (h : '\n' ∉ buffer) : drain buffer = ([], buffer) := by
  rw [drain, if_neg h]

theorem drain_line {line : Text} (h : '\n' ∉ line) (rest : Text) :
    drain (line ++ '\n' :: rest) = (handledLine line ++ (drain rest).1, (drain rest).2) := by
  have hall : ∀ c ∈ line, decide (c ≠ '\n') = true := by
    intro c hc
    simp only [decide_eq_true_eq]
    rintro rfl
    exact h hc
  rw [drain, if_pos (by simp), List.takeWhile_append_of_pos hall, List.dropWhile_append_of_pos hall]
  simp only [ne_eq, not_true_eq_false, decide_false, Bool.false_eq_true, not_false_eq_true,
    List.takeWhile_cons_of_neg, List.append_nil, List.dropWhile_cons_of_neg, List.drop_succ_cons,
    List.drop_zero, handledLine, Prod.mk.injEq, and_true]
  split_ifs <;> rfl

/-- A buffer ends no line, or starts with one. -/
theorem line_cases (buffer : Text) :
    '\n' ∉ buffer ∨ ∃ line rest, buffer = line ++ '\n' :: rest ∧ '\n' ∉ line := by
  by_cases h : '\n' ∈ buffer
  · obtain ⟨line, rest, he, hline⟩ := List.eq_append_cons_of_mem h
    exact Or.inr ⟨line, rest, he, hline⟩
  · exact Or.inl h

/-- The rest of a buffer and more text drain like the whole. -/
theorem drain_append (buffer more : Text) :
    drain (buffer ++ more) =
      ((drain buffer).1 ++ (drain ((drain buffer).2 ++ more)).1, (drain ((drain buffer).2 ++ more)).2) := by
  induction hn : buffer.length using Nat.strong_induction_on generalizing buffer with
  | _ n ih =>
    rcases line_cases buffer with h | ⟨line, rest, rfl, hline⟩
    · simp [drain_residue h]
    · have hlt : rest.length < n := by simp [← hn]; omega
      rw [List.append_assoc, List.cons_append, drain_line hline, drain_line hline,
        ih _ hlt rest rfl, List.append_assoc]

theorem drain_fst_nil (buffer : Text) : (drain (drain buffer).2).1 = [] := by
  induction hn : buffer.length using Nat.strong_induction_on generalizing buffer with
  | _ n ih =>
    rcases line_cases buffer with h | ⟨line, rest, rfl, hline⟩
    · simp [drain_residue h]
    · rw [drain_line hline]
      exact ih _ (by simp [← hn]; omega) rest rfl

theorem foldl_onData (chunks : List (List ℕ)) (s : Inbound) (hs : drain s.readBuffer = ([], s.readBuffer)) :
    (chunks.foldl Inbound.onData s).handled =
      s.handled ++ (drain (s.readBuffer ++ chunks.flatMap decode)).1 := by
  induction chunks generalizing s with
  | nil => simp [hs]
  | cons c chunks ih =>
    have happ := drain_append (s.readBuffer ++ decode c) []
    rw [List.foldl_cons, ih, List.flatMap_cons, ← List.append_assoc s.readBuffer,
      drain_append (s.readBuffer ++ decode c)]
    · simp [Inbound.onData]
    · rw [List.append_nil, List.append_nil, Prod.ext_iff] at happ
      exact Prod.ext (drain_fst_nil _) happ.2.symm

/-- **Draining chunk by chunk hands on the lines of the whole decoded text.** -/
theorem received_eq (chunks : List (List ℕ)) :
    (received chunks).handled = (drain (chunks.flatMap decode)).1 := by
  have h := foldl_onData chunks .new (drain_residue (by simp [Inbound.new]))
  simpa [Inbound.new, received] using h

/-! ### What becomes of a character -/

/-- A character arrives, at the start of a chunk or inside it, or is cut in two and replaced by
`extra + 2` characters. -/
inductive Fate
  | whole (starts : Bool)
  | torn (extra : ℕ)
  deriving DecidableEq

/-- The text a character becomes. -/
def shown : Char × Fate → Text
  | (c, .whole starts) => if starts = true ∧ c = bom then [] else [c]
  | (_, .torn extra) => List.replicate (extra + 2) replacement

/-- A piece of text, with whether it starts a chunk. -/
def marks (starts : Bool) : Text → List (Char × Fate)
  | [] => []
  | c :: t => (c, .whole starts) :: t.map (·, .whole false)

/-- The characters of chunks that are cut between characters. -/
def starts (pieces : List Text) : List (Char × Fate) := pieces.flatMap (marks true)

/-- The character is not cut. -/
def Whole (f : Char × Fate) : Prop := ∃ b, f.2 = .whole b

theorem map_fst_marks (b : Bool) (t : Text) : (marks b t).map Prod.fst = t := by
  cases t <;> simp [marks, Function.comp_def]

theorem whole_marks {b : Bool} {t : Text} : ∀ f ∈ marks b t, Whole f := by
  intro f hf
  cases t with
  | nil => simp [marks] at hf
  | cons c t =>
    simp only [marks, List.mem_cons, List.mem_map] at hf
    rcases hf with rfl | ⟨d, -, rfl⟩ <;> exact ⟨_, rfl⟩

theorem map_fst_starts (pieces : List Text) : (starts pieces).map Prod.fst = pieces.flatten := by
  induction pieces with
  | nil => rfl
  | cons p pieces ih =>
    rw [starts, List.flatMap_cons, List.map_append, map_fst_marks, List.flatten_cons]
    rw [starts] at ih
    rw [ih]

theorem whole_starts (pieces : List Text) : ∀ f ∈ starts pieces, Whole f := by
  intro f hf
  obtain ⟨p, -, hf⟩ := List.mem_flatMap.mp hf
  exact whole_marks f hf

theorem shown_inside (t : Text) : (t.map fun c => (c, Fate.whole false)).flatMap shown = t := by
  induction t with
  | nil => rfl
  | cons c t ih => simp [shown, ih]

/-- A chunk's text, its U+FEFF dropped, character by character. -/
theorem dropBom_append (t w : Text) (hw : w.head? ≠ some bom) :
    dropBom (t ++ w) = (marks true t).flatMap shown ++ w := by
  cases t with
  | nil =>
    cases w with
    | nil => rfl
    | cons c w =>
      have hc : c ≠ bom := by simpa using hw
      simp [dropBom, marks, hc]
  | cons c t =>
    by_cases hc : c = bom <;> simp [dropBom, marks, shown, hc, shown_inside]

theorem decode_pieces (pieces : List Text) :
    (pieces.map encode).flatMap decode = (starts pieces).flatMap shown := by
  induction pieces with
  | nil => rfl
  | cons p pieces ih =>
    have hp : decode (encode p) = (marks true p).flatMap shown := by
      have h1 := decodeFrom_encode p []
      have h2 := dropBom_append p [] (by simp)
      rw [List.append_nil] at h1 h2
      rw [decode, h1]
      simpa [decodeFrom] using h2
    rw [List.map_cons, List.flatMap_cons, hp, ih, starts, starts, List.flatMap_cons, List.flatMap_append]

/-- A chunk that starts inside a character loses no U+FEFF. -/
theorem decode_chunk {r : List ℕ} (hr : ∀ b ∈ r, Continuation b) (t : Text) (q : List ℕ) (w : Text)
    (hq : decodeFrom .idle q = w) (hw : w.head? ≠ some bom) :
    decode (r ++ (encode t ++ q)) =
      List.replicate r.length replacement ++ (marks r.isEmpty t).flatMap shown ++ w := by
  rw [decode, decodeFrom_continuation hr, decodeFrom_encode, hq]
  cases r with
  | nil => simpa using dropBom_append t w hw
  | cons b r =>
    have hne : replacement ≠ bom := by decide
    have hm : (marks false t).flatMap shown = t := by
      rw [show marks false t = t.map fun c => (c, Fate.whole false) by cases t <;> rfl, shown_inside]
    simp [List.replicate_succ, dropBom, hne, hm]

/-- **The fates of the characters of a text received in chunks**, `r` being what is left of a character cut
before. If none is cut, the chunks are pieces of the text. -/
structure Fates (chunks : List (List ℕ)) (r : List ℕ) (t : Text) (fs : List (Char × Fate)) : Prop where
  chars : fs.map Prod.fst = t
  decoded : chunks.flatMap decode = List.replicate r.length replacement ++ fs.flatMap shown
  torn : ∀ f ∈ fs, Whole f ∨ 2 ≤ (encodeChar f.1).length
  pieces : r = [] → (∀ f ∈ fs, Whole f) → ∃ pieces, chunks = pieces.map encode ∧ starts pieces = fs

section Fates
variable {chunk r q q' : List ℕ} {rest : List (List ℕ)} {t t1 t2 : Text} {c : Char} {fs : List (Char × Fate)}

/-- A chunk that ends before the character cut earlier does. -/
theorem Fates.inside (h : Fates rest r t fs) (hchunk : chunk ≠ []) (hr : ∀ b ∈ chunk, Continuation b) :
    Fates (chunk :: rest) (chunk ++ r) t fs where
  chars := h.chars
  decoded := by
    have hc : decode chunk = List.replicate chunk.length replacement := by
      have := decode_chunk hr [] [] [] rfl (by simp)
      simpa [marks] using this
    rw [List.flatMap_cons, hc, h.decoded, List.length_append, ← List.append_assoc, List.replicate_append_replicate]
  torn := h.torn
  pieces he := absurd he (by simp [hchunk])

/-- A chunk that ends between two characters. -/
theorem Fates.between (h : Fates rest [] t2 fs) (hr : ∀ b ∈ r, Continuation b) :
    Fates ((r ++ encode t1) :: rest) r (t1 ++ t2) (marks r.isEmpty t1 ++ fs) where
  chars := by rw [List.map_append, map_fst_marks, h.chars]
  decoded := by
    have := decode_chunk hr t1 [] [] rfl (by simp)
    rw [List.append_nil, List.append_nil] at this
    rw [List.flatMap_cons, this, h.decoded, List.flatMap_append]
    simp
  torn f hf := by
    rcases List.mem_append.mp hf with hf | hf
    · exact Or.inl (whole_marks f hf)
    · exact h.torn f hf
  pieces := by
    rintro rfl hall
    obtain ⟨pieces, rfl, rfl⟩ := h.pieces rfl fun f hf => hall f (by simp [hf])
    exact ⟨t1 :: pieces, by simp, by simp [starts]⟩

/-- A chunk that ends inside of a character. -/
theorem Fates.cut (h : Fates rest q' t2 fs) (hr : ∀ b ∈ r, Continuation b) (hc : encodeChar c = q ++ q')
    (hq : q ≠ []) (hq' : q' ≠ []) : Fates ((r ++ (encode t1 ++ q)) :: rest) r (t1 ++ c :: t2)
      (marks r.isEmpty t1 ++ (c, .torn (q'.length - 1)) :: fs) where
  chars := by rw [List.map_append, map_fst_marks, List.map_cons, h.chars]
  decoded := by
    have := decode_chunk hr t1 q [replacement] (decodeFrom_torn hc hq hq') (by decide)
    have hk : q'.length - 1 + 2 = 1 + q'.length := by
      have h2 := List.length_pos_of_ne_nil hq'
      omega
    rw [List.flatMap_cons, this, h.decoded, List.flatMap_append, List.flatMap_cons, shown, hk,
      ← List.replicate_append_replicate]
    simp
  torn f hf := by
    have hlen2 : 2 ≤ (encodeChar c).length := by
      have h1 := List.length_pos_of_ne_nil hq
      have h2 := List.length_pos_of_ne_nil hq'
      rw [hc, List.length_append]
      omega
    rcases List.mem_append.mp hf with hf | hf
    · exact Or.inl (whole_marks f hf)
    · rcases List.mem_cons.mp hf with rfl | hf
      · exact Or.inr hlen2
      · exact h.torn f hf
  pieces _ hall := by
    obtain ⟨b, hb⟩ := hall (c, .torn (q'.length - 1)) (by simp)
    exact absurd hb nofun

end Fates

/-- **Every text received in chunks has fates.** -/
theorem exists_fates {chunks : List (List ℕ)} (hne : ∀ c ∈ chunks, c ≠ []) {r : List ℕ} {t : Text}
    (hr : ∀ b ∈ r, Continuation b) (h : chunks.flatten = r ++ encode t) : ∃ fs, Fates chunks r t fs := by
  induction chunks generalizing r t with
  | nil =>
    obtain ⟨rfl, ht⟩ : r = [] ∧ encode t = [] := by simpa using h.symm
    obtain rfl : t = [] := by
      cases t with
      | nil => rfl
      | cons c t => simp [encodeChar_ne_nil] at ht
    exact ⟨[], rfl, rfl, by simp, fun _ _ => ⟨[], rfl, rfl⟩⟩
  | cons chunk rest ih =>
    have hne' : ∀ c ∈ rest, c ≠ [] := fun c hc => hne c (by simp [hc])
    have hchunk : chunk ≠ [] := hne chunk (by simp)
    rw [List.flatten_cons] at h
    rcases List.append_eq_append_iff.mp h with ⟨r', rfl, hrest⟩ | ⟨bs, rfl, hbs⟩
    · obtain ⟨fs, hfs⟩ := ih hne' (r := r') (fun b hb => hr b (by simp [hb])) hrest
      exact ⟨fs, hfs.inside hchunk fun b hb => hr b (by simp [hb])⟩
    rcases cut_encode hbs.symm with ⟨t1, t2, rfl, rfl, hrest⟩ |
      ⟨t1, c, t2, q, q', rfl, hc, hq, hq', rfl, hrest⟩
    · obtain ⟨fs, hfs⟩ := ih hne' (r := []) (by simp) (by simpa using hrest)
      exact ⟨_, hfs.between hr⟩
    · have htail : ∀ b ∈ q', Continuation b := by
        intro b hb
        refine continuation_tail c b ?_
        rw [hc, List.tail_append_of_ne_nil hq]
        exact List.mem_append_right _ hb
      obtain ⟨fs, hfs⟩ := ih hne' (r := q') htail hrest
      exact ⟨_, hfs.cut hr hc hq hq'⟩

/-! ### Line by line -/

def isNewline (f : Char × Fate) : Bool := f.1 = '\n'

/-- The lines of a marked text. -/
def markedLines (fs : List (Char × Fate)) : List (List (Char × Fate)) := fs.splitOnP isNewline

/-- A line the client passes over. -/
def Blank (line : Text) : Prop := ∀ c ∈ line, whitespace c

instance (line : Text) : Decidable (Blank line) := List.decidableBAll (fun c => Dart.whitespace c) line

/-- The lines that are not blank. -/
def nonBlank (lines : List Line) : List Text := (lines.map Line.text).filter (¬ Blank ·)

/-- What the client should be given of one line. -/
def kept (line : Text) : List Text := if Blank line then [] else [line]

/-- A line the framing leaves as it is: blank, or trimmed already with no U+FEFF at the start of a
chunk. -/
def Intact (ml : List (Char × Fate)) : Prop :=
  ¬ Blank (ml.map Prod.fst) →
    trim (ml.map Prod.fst) = ml.map Prod.fst ∧ (bom, Fate.whole true) ∉ ml

/-- **No chunk ends inside a character, and every line is left intact.** -/
def Aligned (chunks : List (List ℕ)) : Prop :=
  ∃ pieces : List Text, chunks = pieces.map encode ∧ ∀ ml ∈ markedLines (starts pieces), Intact ml

theorem mem_markedLines {fs : List (Char × Fate)} {f : Char × Fate} (hf : f ∈ fs) :
    isNewline f = true ∨ ∃ ml ∈ markedLines fs, f ∈ ml := by
  unfold markedLines
  induction fs with
  | nil => simp at hf
  | cons g fs ih =>
    rw [List.splitOnP_cons_eq_if_modifyHead]
    by_cases hg : isNewline g
    · rcases List.mem_cons.mp hf with rfl | hf
      · exact Or.inl hg
      · rcases ih hf with h | ⟨ml, hml, h⟩
        · exact Or.inl h
        · exact Or.inr ⟨ml, by simp [hg, hml], h⟩
    · obtain ⟨first, others, hs⟩ := List.exists_cons_of_ne_nil (List.splitOnP_ne_nil isNewline fs)
      rw [hs] at ih ⊢
      simp only [hg, Bool.false_eq_true, if_false, List.modifyHead_cons]
      rcases List.mem_cons.mp hf with rfl | hf
      · exact Or.inr ⟨f :: first, by simp, by simp⟩
      · rcases ih hf with h | ⟨ml, hml, h⟩
        · exact Or.inl h
        · rcases List.mem_cons.mp hml with rfl | hml
          · exact Or.inr ⟨g :: ml, by simp, by simp [h]⟩
          · exact Or.inr ⟨ml, by simp [hml], h⟩

theorem mem_of_mem_markedLines {fs ml : List (Char × Fate)} {f : Char × Fate} (hml : ml ∈ markedLines fs)
    (hf : f ∈ ml) : f ∈ fs := by
  unfold markedLines at hml
  induction fs generalizing ml with
  | nil =>
    obtain rfl : ml = [] := by simpa using hml
    simp at hf
  | cons g fs ih =>
    rw [List.splitOnP_cons_eq_if_modifyHead] at hml
    by_cases hg : isNewline g
    · rw [if_pos hg] at hml
      rcases List.mem_cons.mp hml with rfl | hml
      · simp at hf
      · exact List.mem_cons_of_mem g (ih hml hf)
    · obtain ⟨first, others, hs⟩ := List.exists_cons_of_ne_nil (List.splitOnP_ne_nil isNewline fs)
      rw [if_neg hg, hs, List.modifyHead_cons] at hml
      rw [hs] at ih
      rcases List.mem_cons.mp hml with rfl | hml
      · rcases List.mem_cons.mp hf with rfl | hf
        · exact List.mem_cons_self
        · exact List.mem_cons_of_mem g (ih (by simp) hf)
      · exact List.mem_cons_of_mem g (ih (List.mem_cons_of_mem _ hml) hf)

/-- The replaced and the dropped characters of a line end no line. -/
theorem newline_notMem_shown {ml : List (Char × Fate)} (h : '\n' ∉ ml.map Prod.fst) :
    '\n' ∉ ml.flatMap shown := by
  simp only [List.mem_flatMap, not_exists, not_and]
  rintro ⟨c, b | k⟩ hf hn
  · simp only [shown] at hn
    split_ifs at hn
    · simp at hn
    · obtain rfl : '\n' = c := by simpa using hn
      exact h (List.mem_map_of_mem hf)
  · have := List.eq_of_mem_replicate hn
    exact absurd this (by decide)

/-- The lines of the marked text are those the engine sent, and drain one by one. -/
theorem drain_shown {lines : List Line} {fs : List (Char × Fate)} (hfst : fs.map Prod.fst = ended lines)
    (hlen : ∀ f ∈ fs, Whole f ∨ 2 ≤ (encodeChar f.1).length) :
    (markedLines fs).map (·.map Prod.fst) = lines.map Line.text ++ [[]] ∧
      (drain (fs.flatMap shown)).1 = (markedLines fs).flatMap fun ml => handledLine (ml.flatMap shown) := by
  unfold markedLines
  induction lines generalizing fs with
  | nil =>
    obtain rfl : fs = [] := by simpa [ended] using hfst
    refine ⟨rfl, ?_⟩
    rw [List.flatMap_nil, drain_residue (by simp)]
    rfl
  | cons l lines ih =>
    have hsplit : fs.map Prod.fst = l.text ++ '\n' :: ended lines := by simp [hfst, ended]
    obtain ⟨ml, gs, rfl, hml, hgs⟩ := List.map_eq_append_iff.mp hsplit
    obtain ⟨⟨c, fate⟩, gs, rfl, hc, hrest⟩ := List.map_eq_cons_iff.mp hgs
    obtain rfl : c = '\n' := hc
    -- a newline is one byte
    obtain ⟨b, rfl⟩ : ∃ b, fate = .whole b := by
      rcases hlen ('\n', fate) (by simp) with h | h
      · exact h
      · exact absurd (show 2 ≤ (encodeChar '\n').length from h) (by decide)
    have hnl : '\n' ∉ ml.map Prod.fst := hml ▸ l.noNewline
    have hfirst : ∀ f ∈ ml, isNewline f = false := by
      intro f hf
      simp only [isNewline, decide_eq_false_iff_not]
      intro hn
      exact hnl (hn ▸ List.mem_map_of_mem hf)
    obtain ⟨h1, h2⟩ := ih hrest fun f hf => hlen f (by simp [hf])
    rw [List.splitOnP_append_cons_of_forall_mem hfirst ('\n', .whole b) rfl, List.flatMap_append,
      List.flatMap_cons]
    refine ⟨by simp [h1, hml], ?_⟩
    have hn : shown ('\n', .whole b) = ['\n'] := by simp [shown, show ('\n' : Char) ≠ bom by decide]
    rw [hn, List.singleton_append, drain_line (newline_notMem_shown hnl), h2]
    rfl

theorem trim_eq_nil_iff {t : Text} : trim t = [] ↔ Blank t := trimBy_eq_nil_iff

theorem handledLine_of_blank {t : Text} (h : Blank t) : handledLine t = [] := by
  rw [handledLine, if_pos (trim_eq_nil_iff.mpr h)]

theorem handledLine_of_not_blank {t : Text} (h : ¬ Blank t) : handledLine t = [trim t] := by
  rw [handledLine, if_neg (mt trim_eq_nil_iff.mp h)]

/-- The characters of a text that trimming keeps. -/
def ink (t : Text) : ℕ := t.countP (! whitespace ·)

theorem ink_eq_zero_iff {t : Text} : ink t = 0 ↔ Blank t := by
  simp [ink, Blank, List.countP_eq_zero]

theorem ink_trim (t : Text) : ink (trim t) = ink t := countP_trimBy

/-- The characters of a line that were cut. -/
def tears (ml : List (Char × Fate)) : ℕ := ml.countP fun f => (f.2 matches .torn _)

/-- A cut character leaves at least one more to see than it was. -/
theorem ink_shown (ml : List (Char × Fate)) :
    ink (ml.map Prod.fst) + tears ml ≤ ink (ml.flatMap shown) := by
  induction ml with
  | nil => simp [ink, tears]
  | cons f ml ih =>
    obtain ⟨c, b | k⟩ := f
    · have hc : ink [c] ≤ ink (shown (c, .whole b)) := by
        simp only [shown]
        split_ifs with h
        · rw [h.2]
          decide
        · rfl
      simp only [ink, tears, List.map_cons, List.flatMap_cons, List.countP_append, List.countP_cons,
        List.countP_nil] at ih hc ⊢
      simp only [Bool.false_eq_true, if_false] at ih ⊢
      omega
    · have hr : ink (shown (c, .torn k)) = k + 2 := by
        simp [ink, shown, List.countP_replicate, show whitespace replacement = false by decide]
      simp only [ink, tears, List.map_cons, List.flatMap_cons, List.countP_append, List.countP_cons]
        at ih hr ⊢
      simp only [if_true] at ih ⊢
      split_ifs <;> omega

theorem whole_of_tears {ml : List (Char × Fate)} (h : tears ml = 0) : ∀ f ∈ ml, Whole f := by
  rintro ⟨c, b | k⟩ hf
  · exact ⟨b, rfl⟩
  · exact absurd rfl (List.countP_eq_zero.mp h _ hf)

/-- A line without cut characters is shown whole, or loses a U+FEFF that starts a chunk. -/
theorem shown_of_whole {ml : List (Char × Fate)} (hw : ∀ f ∈ ml, Whole f)
    (hb : (bom, Fate.whole true) ∉ ml) : ml.flatMap shown = ml.map Prod.fst := by
  induction ml with
  | nil => rfl
  | cons f ml ih =>
    obtain ⟨c, fate⟩ := f
    obtain ⟨b, rfl⟩ : ∃ b, fate = .whole b := hw (c, fate) (by simp)
    have hcb : ¬ (b = true ∧ c = bom) := by
      rintro ⟨rfl, rfl⟩
      exact hb (by simp)
    rw [List.flatMap_cons, ih (fun f hf => hw f (by simp [hf])) (by simp_all), shown, if_neg hcb]
    rfl

theorem shown_sublist {ml : List (Char × Fate)} (hw : ∀ f ∈ ml, Whole f) :
    (ml.flatMap shown).Sublist (ml.map Prod.fst) := by
  induction ml with
  | nil => simp
  | cons f ml ih =>
    obtain ⟨c, fate⟩ := f
    obtain ⟨b, rfl⟩ : ∃ b, fate = .whole b := hw (c, fate) (by simp)
    have ih := ih fun f hf => hw f (by simp [hf])
    rw [List.flatMap_cons, List.map_cons, shown]
    split_ifs
    · exact ih.cons c
    · exact ih.cons_cons c

theorem shown_length_lt {ml : List (Char × Fate)} (hw : ∀ f ∈ ml, Whole f)
    (hb : (bom, Fate.whole true) ∈ ml) : (ml.flatMap shown).length < (ml.map Prod.fst).length := by
  obtain ⟨m1, m2, rfl⟩ := List.append_of_mem hb
  have h1 := (shown_sublist (fun f hf => hw f (by simp [hf]) : ∀ f ∈ m1, Whole f)).length_le
  have h2 := (shown_sublist (fun f hf => hw f (by simp [hf]) : ∀ f ∈ m2, Whole f)).length_le
  have h3 : shown (bom, Fate.whole true) = [] := rfl
  simp only [List.flatMap_append, List.flatMap_cons, h3, List.map_append, List.map_cons,
    List.length_append, List.length_cons, List.nil_append] at h1 h2 ⊢
  omega

/-- **One line is handed on as it was sent exactly if none of its characters is cut and it is intact.** -/
theorem handledLine_shown_iff (ml : List (Char × Fate)) :
    handledLine (ml.flatMap shown) = kept (ml.map Prod.fst) ↔ (∀ f ∈ ml, Whole f) ∧ Intact ml := by
  have hink := ink_shown ml
  constructor
  · intro h
    by_cases hbl : Blank (ml.map Prod.fst)
    · refine ⟨whole_of_tears ?_, fun hn => absurd hbl hn⟩
      rw [kept, if_pos hbl] at h
      have hz : ink (ml.flatMap shown) = 0 := by
        rw [ink_eq_zero_iff]
        by_contra hn
        rw [handledLine_of_not_blank hn] at h
        simp at h
      omega
    · rw [kept, if_neg hbl] at h
      have hsh : ¬ Blank (ml.flatMap shown) := by
        intro hb
        rw [handledLine_of_blank hb] at h
        simp at h
      rw [handledLine_of_not_blank hsh, List.cons.injEq] at h
      have htr := h.1
      have heq : ink (ml.flatMap shown) = ink (ml.map Prod.fst) := by rw [← ink_trim, htr]
      have hw := whole_of_tears (show tears ml = 0 by omega)
      -- trimming only shortens, so nothing was dropped
      have hb : (bom, Fate.whole true) ∉ ml := by
        intro hb
        have hlt := shown_length_lt hw hb
        have hle : (trim (ml.flatMap shown)).length ≤ (ml.flatMap shown).length := trimBy_sublist.length_le
        rw [htr] at hle
        omega
      refine ⟨hw, fun _ => ⟨?_, hb⟩⟩
      rwa [shown_of_whole hw hb] at htr
  · rintro ⟨hw, hi⟩
    by_cases hbl : Blank (ml.map Prod.fst)
    · rw [kept, if_pos hbl, handledLine_of_blank]
      exact fun c hc => hbl c ((shown_sublist hw).subset hc)
    · obtain ⟨htr, hb⟩ := hi hbl
      rw [shown_of_whole hw hb, kept, if_neg hbl, handledLine_of_not_blank hbl, htr]

/-- A line never vanishes. -/
theorem length_kept_le (ml : List (Char × Fate)) :
    (kept (ml.map Prod.fst)).length ≤ (handledLine (ml.flatMap shown)).length := by
  by_cases hbl : Blank (ml.map Prod.fst)
  · simp [kept, hbl]
  · have hink := ink_shown ml
    have hpos : ink (ml.map Prod.fst) ≠ 0 := mt ink_eq_zero_iff.mp hbl
    have hsh : ¬ Blank (ml.flatMap shown) := by
      rw [← ink_eq_zero_iff]
      omega
    simp [kept, hbl, handledLine_of_not_blank hsh]

theorem length_flatMap_kept_le (mls : List (List (Char × Fate))) :
    (mls.flatMap fun ml => kept (ml.map Prod.fst)).length ≤
      (mls.flatMap fun ml => handledLine (ml.flatMap shown)).length := by
  induction mls with
  | nil => simp
  | cons ml mls ih =>
    have h := length_kept_le ml
    simp only [List.flatMap_cons, List.length_append]
    omega

/-- So lists of lines agree only line by line. -/
theorem flatMap_handled_iff (mls : List (List (Char × Fate))) :
    mls.flatMap (fun ml => handledLine (ml.flatMap shown)) = mls.flatMap (fun ml => kept (ml.map Prod.fst)) ↔
      ∀ ml ∈ mls, handledLine (ml.flatMap shown) = kept (ml.map Prod.fst) := by
  induction mls with
  | nil => simp
  | cons ml mls ih =>
    simp only [List.flatMap_cons, List.forall_mem_cons, ← ih]
    constructor
    · intro h
      have hlen := congrArg List.length h
      have h1 := length_kept_le ml
      have h2 := length_flatMap_kept_le mls
      simp only [List.length_append] at hlen
      exact List.append_inj h (by omega)
    · rintro ⟨h1, h2⟩
      rw [h1, h2]

theorem nonBlank_eq {lines : List Line} {fs : List (Char × Fate)}
    (h : (markedLines fs).map (·.map Prod.fst) = lines.map Line.text ++ [[]]) :
    nonBlank lines = (markedLines fs).flatMap fun ml => kept (ml.map Prod.fst) := by
  have hk : ∀ ts : List Text, ts.filter (¬ Blank ·) = ts.flatMap kept := by
    intro ts
    induction ts with
    | nil => rfl
    | cons t ts ih => by_cases hb : Blank t <;> simp [kept, hb, ← ih]
  have hlast : (lines.map Line.text ++ [[]]).flatMap kept = (lines.map Line.text).flatMap kept := by
    simp [kept, Blank]
  rw [nonBlank, hk, ← hlast, ← h, List.flatMap_map]

theorem encode_injective : Function.Injective encode := by
  intro s t h
  have hs := decodeFrom_encode s []
  have ht := decodeFrom_encode t []
  rw [List.append_nil] at hs ht
  rw [h, ht] at hs
  simpa [decodeFrom] using hs.symm

/-- The lines of chunks cut between characters, given their fates. -/
theorem handled_iff_of_fates {lines : List Line} {chunks : List (List ℕ)} {fs : List (Char × Fate)}
    (hfst : fs.map Prod.fst = ended lines) (hdec : chunks.flatMap decode = fs.flatMap shown)
    (hlen : ∀ f ∈ fs, Whole f ∨ 2 ≤ (encodeChar f.1).length) :
    (received chunks).handled = nonBlank lines ↔
      (∀ f ∈ fs, Whole f) ∧ ∀ ml ∈ markedLines fs, Intact ml := by
  obtain ⟨h1, h2⟩ := drain_shown hfst hlen
  rw [received_eq, hdec, h2, nonBlank_eq h1, flatMap_handled_iff]
  simp only [handledLine_shown_iff]
  constructor
  · intro h
    refine ⟨fun f hf => ?_, fun ml hml => (h ml hml).2⟩
    rcases mem_markedLines hf with hn | ⟨ml, hml, hf⟩
    · rcases hlen f hf with hw | h2
      · exact hw
      · have hn : f.1 = '\n' := by simpa [isNewline] using hn
        rw [hn] at h2
        exact absurd h2 (by decide)
    · exact (h ml hml).1 f hf
  · rintro ⟨hw, hi⟩ ml hml
    refine ⟨fun f hf => hw f ?_, hi ml hml⟩
    exact mem_of_mem_markedLines hml hf

/-- **The client is given the engine's lines exactly if the chunks are aligned.** -/
theorem handled_iff (lines : List Line) (cs : Chunks (wire lines)) :
    (received cs.chunks).handled = nonBlank lines ↔ Aligned cs.chunks := by
  obtain ⟨chunks, hne, hflat⟩ := cs
  constructor
  · intro h
    obtain ⟨fs, hfst, hdec, hlen, hpieces⟩ :=
      exists_fates hne (r := []) (by simp) (t := ended lines) (by simpa [wire] using hflat)
    have hiff := handled_iff_of_fates hfst (by simpa using hdec) hlen
    obtain ⟨hw, hi⟩ := hiff.mp h
    obtain ⟨pieces, hp, rfl⟩ := hpieces rfl hw
    exact ⟨pieces, hp, hi⟩
  · rintro ⟨pieces, rfl, hi⟩
    have henc : ∀ pieces : List Text, (pieces.map encode).flatten = encode pieces.flatten := by
      intro pieces
      induction pieces with
      | nil => rfl
      | cons p ps ih => simp [ih]
    have hfst : (starts pieces).map Prod.fst = ended lines := by
      rw [map_fst_starts]
      apply encode_injective
      rw [← henc]
      exact hflat
    have hw := whole_starts pieces
    exact (handled_iff_of_fates hfst (decode_pieces pieces) fun f hf => Or.inl (hw f hf)).mpr ⟨hw, hi⟩

/-- A line with one character of two bytes. -/
def accented : Line := ⟨"\x7b\"title\":\"é\"\x7d".toList, by decide⟩

/-- The line cut between the two bytes. -/
def cutInside : Chunks (wire [accented]) where
  chunks := [(wire [accented]).take 11, (wire [accented]).drop 11]
  nonempty := by decide
  flatten_eq := by decide

/-- **A character cut in two is lost.** -/
theorem handled_depends : ¬ ∀ (lines : List Line) (cs : Chunks (wire lines)),
    (received cs.chunks).handled = nonBlank lines := by
  intro h
  have h := h [accented] cutInside
  have hdec : cutInside.chunks.flatMap decode =
      "\x7b\"title\":\"\ufffd\ufffd\"\x7d".toList ++ '\n' :: [] := by decide
  rw [received_eq, hdec, drain_line (by decide), drain_residue (by decide)] at h
  exact absurd h (by decide)

end Notely.Desktop.Framing
