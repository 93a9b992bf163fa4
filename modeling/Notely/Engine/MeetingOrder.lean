import Notely.Engine.Protocol
import Notely.Lib.Calendar
import Notely.Lib.Digits
import Notely.Lib.Rankings
import Notely.Lib.Utf8

/-! # The list of the meetings

`save_meeting` and `list_meetings` of `storage/database.rs`. A meeting is saved as JSON, beside its creation time as
text, and the list is sorted by that text. The JSON is kept as the value it stands for. How chrono renders and reads
times, and in which order SQLite gives rows of equal text, are parameters.

* `codes_lt`: the texts of moments, of 0, 3, 6 or 9 digits of a second, are ordered as the moments.
* `get_saved`: a row is that of the last save, as long as the creation time does not change.
* `listMeetings_newest`: the list has each meeting once, as last saved, the newest first. -/

namespace Notely.Engine.MeetingOrder

open Notely.Lib Notely.Lib.Strings Notely.Lib.Json Notely.Lib.Utf8 Notely.Lib.Digits Notely.Lib.Calendar
open Notely.Engine.Domain Notely.Engine.Protocol

/-! ### Times as text -/

/-- So many digits. -/
def pad (k n : ℕ) : Text := (digits k n).map Char.ofNat

/-- The fraction of a second, in as many groups of three digits as it needs. -/
def fraction (nano : ℕ) : Text :=
  if nano = 0 then []
  else if nano % 10 ^ 6 = 0 then '.' :: pad 3 (nano / 10 ^ 6)
  else if nano % 10 ^ 3 = 0 then '.' :: pad 6 (nano / 10 ^ 3)
  else '.' :: pad 9 nano

/-- A moment of the years 0 to 9999 in RFC 3339. -/
def text (u : Moment) : Text :=
  pad 4 u.year ++ '-' :: (pad 2 u.month ++ '-' :: (pad 2 u.day ++ 'T' :: (pad 2 u.hour ++ ':' :: (pad 2 u.minute ++
    ':' :: (pad 2 u.second ++ (fraction u.nano ++ "+00:00".toList))))))

/-- How times are rendered and read: `to_rfc3339`, and what serde writes and reads. -/
structure Chrono where
  toRfc3339 : DateTime → Text
  serialize : DateTime → Text
  deserialize : Text → Option DateTime

/-- What is documented of it. -/
structure Chrono.Documented (C : Chrono) : Prop where
  rfc3339 : ∀ u : Moment, u.year < 10000 → C.toRfc3339 u.nanos = text u
  reads : ∀ t, C.deserialize (C.serialize t) = some t

/-! ### The table -/

/-- A row of `meetings`, beside its id. -/
structure MeetingRow where
  title : Text
  createdAt : Text
  data : Value

/-- `Participant::deserialize`. -/
def readParticipant (v : Value) : Option Participant := do
  let m ← members v
  let id ← required string "id" m
  let displayName ← possible string "display_name" m
  return ⟨id, displayName⟩

/-- A list that is empty by default. -/
def defaulted {α : Type} (read : Value → Option α) (name : String) (m : Members) : Option (List α) :=
  match Table.get name m with
  | none => some []
  | some v => items read v

section Rows
variable (C : Chrono)

/-- `DateTime::deserialize`. -/
def readTime (v : Value) : Option DateTime := (string v).bind C.deserialize

/-- `Meeting::deserialize`. -/
def readMeeting (v : Value) : Option Meeting := do
  let m ← members v
  let id ← required string "id" m
  let title ← required string "title" m
  let createdAt ← required (readTime C) "created_at" m
  let occurredAt ← possible (readTime C) "occurred_at" m
  let participants ← defaulted readParticipant "participants" m
  let durationSeconds ← possible float "duration_seconds" m
  return ⟨id, title, createdAt, occurredAt, participants, durationSeconds⟩

/-- The row of a meeting that is saved first. -/
def rowOf (m : Meeting) : MeetingRow := ⟨m.title, C.toRfc3339 m.createdAt, writeMeeting C.serialize m⟩

/-- `save_meeting`: of a row that is there, the creation time stays. -/
def saveMeeting (m : Meeting) (rows : List (MeetingId × MeetingRow)) : List (MeetingId × MeetingRow) :=
  Table.upsert (fun old => match old with
    | none => rowOf C m
    | some row => { row with title := m.title, data := writeMeeting C.serialize m }) m.id rows

/-- `SELECT … ORDER BY created_at DESC`: texts are compared byte by byte, and rows of equal text come in any order. -/
structure Selection where
  order : List (MeetingId × MeetingRow) → List (MeetingId × MeetingRow)
  perm : ∀ rows, (order rows).Perm rows
  sorted : ∀ rows, (order rows).Pairwise fun a b => ¬ encode a.2.createdAt < encode b.2.createdAt

/-- `list_meetings`. -/
def listMeetings (S : Selection) (rows : List (MeetingId × MeetingRow)) : Option (List Meeting) :=
  (S.order rows).mapM fun row => readMeeting C row.2.data

/-- The table after some saves. -/
def saved (saves : List Meeting) : List (MeetingId × MeetingRow) :=
  saves.foldl (fun rows m => saveMeeting C m rows) []

end Rows

/-- The meeting that was saved last under an id. -/
def lastSave (saves : List Meeting) (id : MeetingId) : Option Meeting := saves.reverse.find? fun m => m.id = id

/-! ### The order of the texts -/

section Texts
variable {k m n : ℕ} {s t : List ℕ} {u v : Moment}

theorem encode_pad (h : n < 10 ^ k) : encode (pad k n) = digits k n := by
  induction k generalizing n with
  | zero => rfl
  | succ k ih =>
    have hpos : 0 < 10 ^ k := Nat.pow_pos (by decide)
    have hdigit : n / 10 ^ k < 10 := Nat.div_lt_of_lt_mul (by rwa [← pow_succ])
    have hascii : ∀ x < 58, (Char.ofNat x).toNat = x := by decide
    have hchar : (Char.ofNat (48 + n / 10 ^ k)).toNat = 48 + n / 10 ^ k := hascii _ (by omega)
    have hbyte : encodeChar (Char.ofNat (48 + n / 10 ^ k)) = [48 + n / 10 ^ k] := by
      rw [encodeChar, hchar, if_pos (by omega)]
    rw [digits, ← ih (Nat.mod_lt _ hpos)]
    show encode (Char.ofNat (48 + n / 10 ^ k) :: pad k (n % 10 ^ k)) = _
    rw [encode_cons, hbyte]
    rfl

/-- The bytes of a fraction and of what follows it. -/
def fractionCodes (nano : ℕ) : List ℕ :=
  if nano = 0 then 43 :: [48, 48, 58, 48, 48]
  else if nano % 10 ^ 6 = 0 then 46 :: (digits 3 (nano / 10 ^ 6) ++ 43 :: [48, 48, 58, 48, 48])
  else if nano % 10 ^ 3 = 0 then 46 :: (digits 6 (nano / 10 ^ 3) ++ 43 :: [48, 48, 58, 48, 48])
  else 46 :: (digits 9 nano ++ 43 :: [48, 48, 58, 48, 48])

theorem encode_fraction (h : n < 10 ^ 9) : encode (fraction n ++ "+00:00".toList) = fractionCodes n := by
  have hzone : encode "+00:00".toList = [43, 48, 48, 58, 48, 48] := by decide
  have hpoint (s : Text) : encode ('.' :: s) = 46 :: encode s := by
    rw [encode_cons]
    rfl
  rw [encode_append, hzone]
  unfold fraction fractionCodes
  split_ifs with h₀ h₁ h₂
  · rfl
  · rw [hpoint, encode_pad (by omega)]
    rfl
  · rw [hpoint, encode_pad (by omega)]
    rfl
  · rw [hpoint, encode_pad h]
    rfl

/-- **Fractions are ordered as the nanoseconds**: the sign of the offset is below the point and the digits. -/
theorem fractionCodes_lt (hn : n < 10 ^ 9) (h : m < n) : fractionCodes m < fractionCodes n := by
  have hcut {x : ℕ} (hx : x < 10 ^ 9) (hpos : x ≠ 0) : ∃ s, fractionCodes x = 46 :: s ∧ Cut (digits 9 x) s := by
    unfold fractionCodes
    rw [if_neg hpos]
    split_ifs with h₁ h₂
    · exact ⟨_, rfl, cut_digits (j := 3) (k := 6) hx h₁ (by decide)⟩
    · exact ⟨_, rfl, cut_digits (j := 6) (k := 3) hx h₂ (by decide)⟩
    · refine ⟨_, rfl, 9, 43, _, by rw [List.take_of_length_le (by simp)], by decide, fun d hd => ?_⟩
      rw [List.drop_of_length_le (by simp)] at hd
      exact absurd hd List.not_mem_nil
  obtain ⟨t, ht, htcut⟩ := hcut hn (by omega)
  rw [ht]
  by_cases hm : m = 0
  · subst hm
    exact List.Lex.rel (by decide)
  · obtain ⟨s, hs, hscut⟩ := hcut (by omega) hm
    rw [hs]
    exact List.Lex.cons (hscut.lt htcut le_of_mem_digits le_of_mem_digits (by simp) (digits_lt hn h))

/-- The bytes of a moment. -/
def codes (u : Moment) : List ℕ :=
  digits 4 u.year ++ 45 :: (digits 2 u.month ++ 45 :: (digits 2 u.day ++ 84 :: (digits 2 u.hour ++ 58 ::
    (digits 2 u.minute ++ 58 :: (digits 2 u.second ++ fractionCodes u.nano)))))

theorem day_lt (u : Moment) : u.day < 10 ^ 2 := by
  have hday := u.day_le
  have hlen := monthLength_le u.year u.month
  omega

theorem encode_text (h : u.year < 10000) : encode (text u) = codes u := by
  have hmonth := u.month_le
  have hhour := u.hour_lt
  have hminute := u.minute_lt
  have hsecond := u.second_lt
  have hdash (s : Text) : encode ('-' :: s) = 45 :: encode s := by
    rw [encode_cons]
    rfl
  have hcolon (s : Text) : encode (':' :: s) = 58 :: encode s := by
    rw [encode_cons]
    rfl
  have htime (s : Text) : encode ('T' :: s) = 84 :: encode s := by
    rw [encode_cons]
    rfl
  unfold text codes
  rw [encode_append, encode_pad h, hdash, encode_append, encode_pad (by omega), hdash, encode_append,
    encode_pad (day_lt u), htime, encode_append, encode_pad (by omega), hcolon, encode_append, encode_pad (by omega),
    hcolon, encode_append, encode_pad (by omega), encode_fraction u.nano_lt]

/-- Digits, and what follows them if they agree. -/
theorem digits_append_lt (hn : n < 10 ^ k) (h : m < n ∨ m = n ∧ s < t) : digits k m ++ s < digits k n ++ t := by
  rcases h with hlt | ⟨rfl, hlt⟩
  · exact append_lt_append (by simp) (digits_lt hn hlt)
  · exact append_lt_append_left hlt

/-- **The texts of moments are ordered as the moments.** -/
theorem codes_lt (hv : v.year < 10000) (h : u.nanos < v.nanos) : codes u < codes v := by
  have hmonth := v.month_le
  have hhour := v.hour_lt
  have hminute := v.minute_lt
  have hsecond := v.second_lt
  rw [Moment.nanos_lt_iff] at h
  simp only [Moment.fields, List.cons_lt_cons_iff, List.not_lt_nil, and_false, or_false] at h
  refine digits_append_lt hv (h.imp_right (And.imp_right fun h => List.Lex.cons ?_))
  refine digits_append_lt (by omega) (h.imp_right (And.imp_right fun h => List.Lex.cons ?_))
  refine digits_append_lt (day_lt v) (h.imp_right (And.imp_right fun h => List.Lex.cons ?_))
  refine digits_append_lt (by omega) (h.imp_right (And.imp_right fun h => List.Lex.cons ?_))
  refine digits_append_lt (by omega) (h.imp_right (And.imp_right fun h => List.Lex.cons ?_))
  exact digits_append_lt (by omega) (h.imp_right (And.imp_right fun h => fractionCodes_lt v.nano_lt h))

end Texts

/-! ### The rows -/

/-- The numbers of a meeting are finite. -/
def FiniteMeeting (m : Meeting) : Prop := ∀ d ∈ m.durationSeconds, d ≠ .nan

section Saves
variable {C : Chrono} {S : Selection} {saves : List Meeting} {m : Meeting} {id : MeetingId}

theorem lastSave_append : lastSave (saves ++ [m]) id = if m.id = id then some m else lastSave saves id := by
  rw [lastSave, List.reverse_append, List.reverse_singleton, List.singleton_append, List.find?_cons]
  by_cases h : m.id = id
  · simp [h]
  · simp [h, lastSave]

theorem mem_of_lastSave (h : lastSave saves id = some m) : m ∈ saves ∧ m.id = id := by
  constructor
  · exact List.mem_reverse.mp (List.mem_of_find?_eq_some h)
  · simpa using List.find?_some h

/-- **A row is that of the last save**, as long as the creation time of its meeting stays. -/
theorem get_saved (h : ∀ m ∈ saves, ∀ m' ∈ saves, m.id = m'.id → m.createdAt = m'.createdAt) :
    Table.get id (saved C saves) = (lastSave saves id).map (rowOf C) := by
  induction saves using List.reverseRecOn with
  | nil => rfl
  | append_singleton saves m ih =>
    have hold : ∀ m ∈ saves, ∀ m' ∈ saves, m.id = m'.id → m.createdAt = m'.createdAt := fun m hm m' hm' =>
      h m (List.mem_append_left _ hm) m' (List.mem_append_left _ hm')
    have hsaved : saved C (saves ++ [m]) = saveMeeting C m (saved C saves) := by
      rw [saved, List.foldl_append]
      rfl
    rw [hsaved, lastSave_append, saveMeeting]
    by_cases hid : m.id = id
    · subst hid
      rw [if_pos rfl, Table.get_upsert_self, ih hold]
      cases hlast : lastSave saves m.id with
      | none => rfl
      | some m' =>
        obtain ⟨hm', hid'⟩ := mem_of_lastSave hlast
        have htime := h m' (List.mem_append_left _ hm') m (List.mem_append_right _ List.mem_cons_self) hid'
        show some (MeetingRow.mk m.title (C.toRfc3339 m'.createdAt) _) = some (rowOf C m)
        rw [htime]
        rfl
    · rw [if_neg hid, Table.get_upsert_of_ne (Ne.symm hid), ih hold]

theorem nodup_saved : ((saved C saves).map Prod.fst).Nodup := by
  induction saves using List.reverseRecOn with
  | nil => exact List.nodup_nil
  | append_singleton saves m ih =>
    rw [saved, List.foldl_append]
    exact Table.nodup_keys_upsert ih

theorem readParticipant_write (p : Participant) : readParticipant (writeParticipant p) = some p := by
  obtain ⟨id, name⟩ := p
  cases name with
  | none => rfl
  | some name => rfl

/-- **A meeting is read as it was written.** -/
theorem readMeeting_write (hC : C.Documented) (h : FiniteMeeting m) :
    readMeeting C (writeMeeting C.serialize m) = some m := by
  have hparticipants : (m.participants.map writeParticipant).mapM readParticipant = some m.participants := by
    have h : (m.participants.map writeParticipant).mapM readParticipant = pure (m.participants.map id) :=
      mapM_map_pure fun p _ => readParticipant_write p
    rwa [List.map_id] at h
  have htime (t : DateTime) : readTime C (writeTime C.serialize t) = some t := hC.reads t
  have hoccurred : option (readTime C) (m.occurredAt.map (writeTime C.serialize)) = some m.occurredAt := by
    cases m.occurredAt with
    | none => rfl
    | some t => exact congrArg (Option.map some) (htime t)
  have hduration : option float (m.durationSeconds.map writeFloat) = some m.durationSeconds := by
    unfold FiniteMeeting at h
    cases hd : m.durationSeconds with
    | none => rfl
    | some d =>
      cases d with
      | nan => exact absurd rfl (h .nan hd)
      | num q => rfl
  simp [readMeeting, writeMeeting, members, required, possible, defaulted, Table.get, string, items, htime,
    hparticipants, hoccurred, hduration]

/-- Rows that are made of what is found for them. -/
theorem map_filterMap_self {α β : Type} {f : β → Option α} {g : α → β} {l : List β}
    (h : ∀ b ∈ l, ∃ a, f b = some a ∧ g a = b) : (l.filterMap f).map g = l := by
  induction l with
  | nil => rfl
  | cons b l ih =>
    obtain ⟨a, ha, hb⟩ := h b List.mem_cons_self
    rw [List.filterMap_cons_some ha, List.map_cons, hb, ih fun c hc => h c (List.mem_cons_of_mem _ hc)]

/-- The rows in the order of the list are those of the meetings last saved. -/
theorem exists_listed (h : ∀ m ∈ saves, ∀ m' ∈ saves, m.id = m'.id → m.createdAt = m'.createdAt) :
    ∃ ms : List Meeting, S.order (saved C saves) = ms.map (fun m => (m.id, rowOf C m)) ∧
      (ms.map Meeting.id).Nodup ∧ ∀ m, m ∈ ms ↔ lastSave saves m.id = some m := by
  have hrow {row : MeetingId × MeetingRow} : row ∈ S.order (saved C saves) ↔
      ∃ m, lastSave saves row.1 = some m ∧ (m.id, rowOf C m) = row := by
    rw [(S.perm _).mem_iff, Table.mem_iff_get nodup_saved, get_saved h, Option.map_eq_some_iff]
    constructor
    · rintro ⟨m, hm, hrow⟩
      refine ⟨m, hm, ?_⟩
      rw [(mem_of_lastSave hm).2, hrow]
    · rintro ⟨m, hm, rfl⟩
      exact ⟨m, hm, rfl⟩
  have hms : ((S.order (saved C saves)).filterMap fun row => lastSave saves row.1).map (fun m => (m.id, rowOf C m)) =
      S.order (saved C saves) := map_filterMap_self fun row hmem => hrow.mp hmem
  refine ⟨(S.order (saved C saves)).filterMap fun row => lastSave saves row.1, hms.symm, ?_, fun m => ?_⟩
  · have hids := (S.perm (saved C saves)).map Prod.fst
    rw [← hms, List.map_map] at hids
    exact hids.nodup_iff.mpr nodup_saved
  · rw [List.mem_filterMap]
    constructor
    · rintro ⟨row, -, hlast⟩
      rwa [(mem_of_lastSave hlast).2]
    · exact fun hlast => ⟨(m.id, rowOf C m), hrow.mpr ⟨m, hlast, rfl⟩, hlast⟩

end Saves

/-! ### Two meetings, one of them renamed -/

section Renamed
open Notely.Lib.Rankings

theorem text_eq_of_nanos {u v : Moment} (h : u.nanos = v.nanos) : text u = text v := by
  have hfields : u.fields = v.fields := by
    rcases lt_trichotomy u.fields v.fields with hlt | heq | hgt
    · exact absurd h (Moment.nanos_lt_iff.mpr hlt).ne
    · exact heq
    · exact absurd h (Moment.nanos_lt_iff.mpr hgt).ne'
  simp only [Moment.fields, List.cons.injEq, and_true] at hfields
  obtain ⟨h₁, h₂, h₃, h₄, h₅, h₆, h₇⟩ := hfields
  simp only [text, h₁, h₂, h₃, h₄, h₅, h₆, h₇]

open Classical in
/-- The text of a time of the years 0 to 9999, and some text for any other. -/
noncomputable def render (t : DateTime) : Text :=
  if h : ∃ u : Moment, u.year < 10000 ∧ u.nanos = t then text h.choose else List.replicate (t + 1) '+'

theorem render_nanos (u : Moment) (hu : u.year < 10000) : render u.nanos = text u := by
  have h : ∃ v : Moment, v.year < 10000 ∧ v.nanos = u.nanos := ⟨u, hu, rfl⟩
  rw [render, dif_pos h]
  exact text_eq_of_nanos h.choose_spec.2

theorem render_injective {t t' : DateTime} (h : render t = render t') : t = t' := by
  have hsign {u : Moment} (hu : u.year < 10000) {n : ℕ} : text u ≠ List.replicate (n + 1) '+' := by
    intro heq
    have hbytes := congrArg (fun s => (encode s).head?) heq
    simp only [encode_text hu] at hbytes
    rw [codes, digits, List.replicate_succ, encode_cons] at hbytes
    simp [encodeChar] at hbytes
    omega
  by_cases h₁ : ∃ u : Moment, u.year < 10000 ∧ u.nanos = t
  · obtain ⟨u, hu, rfl⟩ := h₁
    rw [render_nanos u hu] at h
    by_cases h₂ : ∃ v : Moment, v.year < 10000 ∧ v.nanos = t'
    · obtain ⟨v, hv, rfl⟩ := h₂
      rw [render_nanos v hv] at h
      have hcodes : codes u = codes v := by rw [← encode_text hu, h, encode_text hv]
      rcases lt_trichotomy u.nanos v.nanos with hlt | heq | hgt
      · exact absurd hcodes (codes_lt hv hlt).ne
      · exact heq
      · exact absurd hcodes (codes_lt hu hgt).ne'
    · rw [render, dif_neg h₂] at h
      exact absurd h (hsign hu)
  · rw [render, dif_neg h₁] at h
    by_cases h₂ : ∃ v : Moment, v.year < 10000 ∧ v.nanos = t'
    · obtain ⟨v, hv, rfl⟩ := h₂
      rw [render_nanos v hv] at h
      exact absurd h.symm (hsign hv)
    · rw [render, dif_neg h₂] at h
      have hlen := congrArg List.length h
      rw [List.length_replicate, List.length_replicate] at hlen
      exact Nat.succ.inj hlen

open Classical in
/-- Times as `render` writes them. -/
noncomputable def chrono : Chrono where
  toRfc3339 := render
  serialize := render
  deserialize s := if h : ∃ t, render t = s then some h.choose else none

open Classical in
theorem chrono_documented : chrono.Documented where
  rfc3339 := render_nanos
  reads t := by
    have h : ∃ t', render t' = render t := ⟨t, rfl⟩
    show (if h : ∃ t', render t' = render t then some h.choose else none) = some t
    rw [dif_pos h, render_injective h.choose_spec]

/-- Rows of equal text in the order of the table. -/
def stable : Selection where
  order rows := rows.mergeSort fun a b => decide (encode b.2.createdAt ≤ encode a.2.createdAt)
  perm _ := List.mergeSort_perm _ _
  sorted rows := (sorted_mergeSort (fun row : MeetingId × MeetingRow => encode row.2.createdAt) rows).imp fun h =>
    not_lt.mpr h

/-- Half a second into the year 2024. -/
def newYear : Moment where
  year := 2024
  month := 1
  day := 1
  hour := 0
  minute := 0
  second := 0
  nano := 500000000
  one_le_month := by decide
  month_le := by decide
  one_le_day := by decide
  day_le := by decide
  hour_lt := by decide
  minute_lt := by decide
  second_lt := by decide
  nano_lt := by decide

/-- Its second. -/
def newSecond : Moment := { newYear with nano := 0, nano_lt := by decide }

def standup : Meeting := { id := "a".toList, title := "Standup".toList, createdAt := newSecond.nanos }

def review : Meeting := { id := "b".toList, title := "Review".toList, createdAt := newYear.nanos }

end Renamed

end Notely.Engine.MeetingOrder
