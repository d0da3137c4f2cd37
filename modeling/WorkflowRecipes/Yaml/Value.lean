import WorkflowRecipes.Number.Basic

/-!
# Document trees

`Value` is a document after reading: scalars, sequences, mappings whose entries keep their order,
and values under a tag. Sameness of trees ignores the order of a mapping's entries.

A mapping is a list of entries with pairwise different keys. Text keys are looked up among the
plain string keys only, while `Value.text?` and its kin also look through tags.
-/

namespace WorkflowRecipes

/-- A document tree. -/
inductive Value where
  | null
  | bool (value : Bool)
  | number (value : Number)
  | string (value : String)
  | sequence (items : List Value)
  | mapping (entries : List (Value × Value))
  | tagged (tag : String) (value : Value)
  deriving Repr, Inhabited

/-- The entries of a mapping, in order. -/
abbrev Entries := List (Value × Value)

namespace Value

mutual

/-- Whether two trees are the same. -/
def same : Value → Value → Bool
  | .null, .null => true
  | .bool a, .bool b => a == b
  | .number a, .number b => a.same b
  | .string a, .string b => a == b
  | .sequence a, .sequence b => sameItems a b
  | .mapping a, .mapping b => a.length == b.length && sameEntries a b
  | .tagged s a, .tagged t b => s == t && same a b
  | _, _ => false

/-- Whether two sequences hold the same items in the same order. -/
def sameItems : List Value → List Value → Bool
  | [], [] => true
  | a :: as, b :: bs => same a b && sameItems as bs
  | _, _ => false

/-- Whether every entry of the first mapping stands somewhere in the second. -/
def sameEntries : List (Value × Value) → List (Value × Value) → Bool
  | [], _ => true
  | (k, v) :: rest, other =>
    (other.any fun e => same k e.1 && same v e.2) && sameEntries rest other

end

/-- A value without the tags around it. -/
def untagged : Value → Value
  | .tagged _ v => untagged v
  | v => v

/-- The text of a string, tags looked through. -/
def text? (v : Value) : Option String :=
  match v.untagged with
  | .string s => some s
  | _ => none

/-- The items of a sequence, tags looked through. -/
def items? (v : Value) : Option (List Value) :=
  match v.untagged with
  | .sequence items => some items
  | _ => none

/-- The entries of a mapping, tags looked through. -/
def entries? (v : Value) : Option Entries :=
  match v.untagged with
  | .mapping entries => some entries
  | _ => none

/-- Whether a key is the plain string `name`. -/
def isKey (name : String) : Value → Bool
  | .string s => s == name
  | _ => false

end Value

namespace Entries

/-- The value under the string key `name`. -/
def get? (entries : Entries) (name : String) : Option Value :=
  (entries.find? fun e => e.1.isKey name).map (·.2)

/-- Whether the string key `name` is present. -/
def hasKey (entries : Entries) (name : String) : Bool :=
  entries.any fun e => e.1.isKey name

/-- The entries with `value` under `key`: in the place of the key if it is present, else at the
end. -/
def insert (entries : Entries) (key value : Value) : Entries :=
  match entries with
  | [] => [(key, value)]
  | (k, v) :: rest => if key.same k then (k, value) :: rest else (k, v) :: insert rest key value

/-- The entries with `value` under the string key `name`. -/
def set (entries : Entries) (name : String) (value : Value) : Entries :=
  insert entries (.string name) value

/-- The entries without the string key `name`. -/
def erase (entries : Entries) (name : String) : Entries :=
  entries.filter fun e => !e.1.isKey name

/-- The entries of a list inserted one by one: of two with the same key the later value wins and the
earlier place is kept. -/
def ofList (entries : List (Value × Value)) : Entries :=
  entries.foldl (fun acc e => acc.insert e.1 e.2) []

/-- The text under a string key, tags looked through. -/
def text? (entries : Entries) (name : String) : Option String :=
  (entries.get? name).bind Value.text?

end Entries

namespace Value

/-- The value under a string key of a mapping, tags looked through. -/
def get? (v : Value) (name : String) : Option Value :=
  v.entries?.bind fun entries => entries.get? name

end Value

end WorkflowRecipes
