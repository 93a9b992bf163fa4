import Mathlib.Data.Rat.Defs
import Notely.Lib.Strings
import Notely.Lib.Table

/-! # JSON values

What a JSON text stands for. A number is kept exactly, as one written with a fraction or without; an object
is the list of its members. Writers leave out what is absent (`optional`), and readers meet a member as
`Table.get` finds it, so that an absent member is told from a null one.

* `get_optional`, `Table.get_append`: what is found in an object put together from such parts.
* `mapM_map_pure`, `mapM_filterMap_pure`: items that are read as they were written are read so as a list. -/

namespace Notely.Lib.Json

open Notely.Lib.Strings

/-- A JSON value. -/
inductive Value
  | null
  | bool (value : Bool)
  | int (value : ℤ)
  | dec (value : ℚ)
  | str (value : Text)
  | arr (items : List Value)
  | obj (members : List (String × Value))

/-- The members of an object. -/
abbrev Members := List (String × Value)

/-- A member that is left out if it is absent. -/
def optional (name : String) (value : Option Value) : Members := (value.map fun v => (name, v)).toList

/-- A member that is null if it is absent. -/
def nullable (value : Option Value) : Value := value.getD .null

section Laws
variable {name name' : String} {value : Option Value}

@[simp] theorem get_optional :
    Table.get name (optional name' value) = if name' = name then value else none := by
  cases value with
  | none => simp [optional]
  | some v => rfl

@[simp] theorem nullable_some {v : Value} : nullable (some v) = v := rfl

@[simp] theorem nullable_none : nullable none = .null := rfl

/-- Items that are read as they were written are read so as a list. -/
theorem mapM_map_pure {M : Type → Type} [Monad M] [LawfulMonad M] {α β γ : Type} {write : α → β} {read : β → M γ}
    {g : α → γ} {items : List α} (h : ∀ a ∈ items, read (write a) = pure (g a)) :
    (items.map write).mapM read = pure (items.map g) := by
  induction items with
  | nil => simp
  | cons a items ih =>
    have hhead : read (write a) = pure (g a) := h a (by simp)
    have htail : (items.map write).mapM read = pure (items.map g) := ih fun b hb => h b (by simp [hb])
    simp [hhead, htail]

/-- So are items that may be left out, and are not. -/
theorem mapM_filterMap_pure {M : Type → Type} [Monad M] [LawfulMonad M] {α β γ : Type} {write : α → Option β}
    {read : β → M γ} {g : α → γ} {items : List α} (h : ∀ a ∈ items, ∃ b, write a = some b ∧ read b = pure (g a)) :
    (items.filterMap write).mapM read = pure (items.map g) := by
  induction items with
  | nil => simp
  | cons a items ih =>
    obtain ⟨b, hwrite, hread⟩ := h a (by simp)
    have htail : (items.filterMap write).mapM read = pure (items.map g) := ih fun c hc => h c (by simp [hc])
    simp [List.filterMap_cons_some hwrite, hread, htail]

end Laws

end Notely.Lib.Json
