import WorkflowRecipes.Yaml.Value
import WorkflowRecipes.Text.Digits

/-!
# Reaching into a document

Chains of keys lead to a value: `Value.lookup?` reads it and `Value.update?` changes it. The
functions named `over…` change a part of a value and keep all else, in any monad.
-/

namespace WorkflowRecipes

namespace Value

/-- The text of a string, number or truth value. -/
def scalarText? : Value → Option String
  | .string s => some s
  | .number n => some n.text
  | .bool b => some (if b then "true" else "false")
  | _ => none

/-- The text that stands for a key in a location. -/
def keyText (key : Value) : String := key.scalarText?.getD "?"

/-- Whether a value is a plain null. -/
def isNull : Value → Bool
  | .null => true
  | _ => false

/-- The natural number of 64 bits that a text of digits stands for; a plus may precede them. -/
def smallNatural? (text : String) : Option Nat :=
  match text.toList with
  | '+' :: digits => Text.naturalBelow? UInt64.size digits
  | digits => Text.naturalBelow? UInt64.size digits

/-- What replaces a scalar by a text: a number stays a number if the text is one. -/
def replacement (old : Value) (text : String) : Value :=
  match old, smallNatural? text with
  | .number _, some n => .number (.integer n)
  | _, _ => .string text

/-- The value that a chain of keys leads to, tags looked through on the way. -/
def lookup? (value : Value) (keys : List String) : Option Value :=
  keys.foldlM (fun v key => v.get? key) value

/-- The items of a value that is a sequence, and none of any other. -/
def itemsOf (value : Value) : List Value := value.items?.getD []

/-- The entries of a value that is a mapping, and none of any other. -/
def entriesOf (value : Value) : Entries := value.entries?.getD []

section Over

variable {m : Type → Type} [Monad m]

/-- Change what a value holds behind its tags. -/
def overUntagged (f : Value → m Value) : Value → m Value
  | .tagged tag value => return .tagged tag (← overUntagged f value)
  | value => f value

/-- Change the entries of a mapping, tags looked through. -/
def overEntries (f : Entries → m Entries) : Value → m Value :=
  overUntagged fun
    | .mapping entries => return .mapping (← f entries)
    | value => pure value

/-- Change the items of a sequence, tags looked through. -/
def overItems (f : List Value → m (List Value)) : Value → m Value :=
  overUntagged fun
    | .sequence items => return .sequence (← f items)
    | value => pure value

end Over

end Value

namespace Entries

variable {m : Type → Type} [Monad m]

/-- Change the value under a string key, if the key is present. -/
def overKey (name : String) (f : Value → m Value) : Entries → m Entries
  | [] => pure []
  | (key, value) :: rest =>
    if key.isKey name then return (key, ← f value) :: rest
    else return (key, value) :: (← overKey name f rest)

/-- Change the mapping under a string key. A key that is absent or null gets an empty mapping
first; with any other value nothing happens. -/
def overChild (name : String) (f : Entries → m Entries) (entries : Entries) : m Entries :=
  match entries.get? name with
  | none | some .null => return entries.set name (.mapping (← f []))
  | some _ => overKey name (Value.overEntries f) entries

/-- Whether `overChild` finds or makes a mapping. -/
def hasChild (name : String) (entries : Entries) : Bool :=
  match entries.get? name with
  | none | some .null => true
  | some value => value.entries?.isSome

end Entries

namespace Value

variable {m : Type → Type} [Monad m]

/-- Change the value under a key of a mapping, tags looked through. -/
def overKey (name : String) (f : Value → m Value) : Value → m Value :=
  overEntries (Entries.overKey name f)

/-- Change the value that a chain of keys leads to. -/
def overKeys (names : List String) (f : Value → m Value) : Value → m Value :=
  match names with
  | [] => f
  | name :: rest => overKey name (overKeys rest f)

/-- The document with the value at the end of a chain of keys changed, if there is such a value. -/
def update? (value : Value) (keys : List String) (f : Value → Value) : Option Value :=
  if (value.lookup? keys).isSome then some (Id.run (overKeys keys (fun v => pure (f v)) value))
  else none

end Value

end WorkflowRecipes
