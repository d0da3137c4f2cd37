import WorkflowRecipes.Document.Access
import WorkflowRecipes.Document.Location

/-!
# Walks through a document

The jobs of a workflow, its steps, its strings and its entries, each with its location and in the
order of the document. The lists `jobs`, `steps` and `entriesWithin` are for looking; `overJobs`,
`overSteps` and `overStrings` change what they visit.

A step is a mapping among the items of a sequence under a key `steps`, at any depth; nothing below
such a sequence is visited again.
-/

namespace WorkflowRecipes.Value

/-! ## Looking -/

/-- The location of the jobs of a workflow. -/
def jobsLocation : Location := Location.root.key "jobs"

/-- The jobs of a workflow that are mappings: name, location and entries. -/
def jobs (doc : Value) : List (String × Location × Entries) :=
  (doc.get? "jobs").toList.flatMap fun jobs =>
    jobs.entriesOf.filterMap fun (key, job) =>
      job.entries?.map fun entries => (key.keyText, jobsLocation.key key.keyText, entries)

/-- The mappings without tags among items, with their locations. -/
def mappingsAt (location : Location) (items : List Value) : List (Location × Entries) :=
  items.zipIdx.filterMap fun (item, i) =>
    match item with
    | .mapping entries => some (location.index i, entries)
    | _ => none

/-- Whether a value is a sequence without a tag. -/
def isSequence : Value → Bool
  | .sequence _ => true
  | _ => false

mutual

/-- The steps below a location. -/
def stepsAt (location : Location) : Value → List (Location × Entries)
  | .mapping entries => stepsOfEntries location entries
  | .sequence items => stepsOfItems location 0 items
  | .tagged _ value => stepsAt location value
  | _ => []

/-- The steps in the values of a mapping. -/
def stepsOfEntries (location : Location) : List (Value × Value) → List (Location × Entries)
  | [] => []
  | (key, value) :: rest =>
    let here := location.key key.keyText
    let found :=
      if key.keyText = "steps" ∧ value.isSequence then mappingsAt here value.itemsOf
      else stepsAt here value
    found ++ stepsOfEntries location rest

/-- The steps in the items of a sequence, from position `i` on. -/
def stepsOfItems (location : Location) (i : Nat) : List Value → List (Location × Entries)
  | [] => []
  | item :: rest => stepsAt (location.index i) item ++ stepsOfItems location (i + 1) rest

end

/-- The steps of a document. -/
def steps (doc : Value) : List (Location × Entries) := doc.stepsAt Location.root

mutual

/-- The entries of all mappings below a location, each before those below it: location, text of the
key, and value. -/
def entriesAt (location : Location) : Value → List (Location × String × Value)
  | .mapping entries => entriesOfEntries location entries
  | .sequence items => entriesOfItems location 0 items
  | .tagged _ value => entriesAt location value
  | _ => []

/-- The entries of a mapping and below. -/
def entriesOfEntries (location : Location) :
    List (Value × Value) → List (Location × String × Value)
  | [] => []
  | (key, value) :: rest =>
    let here := location.key key.keyText
    (here, key.keyText, value) :: (entriesAt here value ++ entriesOfEntries location rest)

/-- The entries below the items of a sequence, from position `i` on. -/
def entriesOfItems (location : Location) (i : Nat) :
    List Value → List (Location × String × Value)
  | [] => []
  | item :: rest => entriesAt (location.index i) item ++ entriesOfItems location (i + 1) rest

end

/-- The entries of a document. -/
def entriesWithin (doc : Value) : List (Location × String × Value) := doc.entriesAt Location.root

mutual

/-- The strings in a value, keys included. -/
def strings : Value → List String
  | .string s => [s]
  | .mapping entries => stringsOfEntries entries
  | .sequence items => stringsOfItems items
  | .tagged _ value => strings value
  | _ => []

/-- The strings in the keys and values of a mapping. -/
def stringsOfEntries : List (Value × Value) → List String
  | [] => []
  | (key, value) :: rest => strings key ++ strings value ++ stringsOfEntries rest

/-- The strings in the items of a sequence. -/
def stringsOfItems : List Value → List String
  | [] => []
  | item :: rest => strings item ++ stringsOfItems rest

end

mutual

/-- Whether a key with this text, tags looked through, stands anywhere in a value. -/
def hasKeyWithin (name : String) : Value → Bool
  | .mapping entries => entriesHaveKeyWithin name entries
  | .sequence items => itemsHaveKeyWithin name items
  | .tagged _ value => hasKeyWithin name value
  | _ => false

/-- Whether a mapping has the key or one of its values has it within. -/
def entriesHaveKeyWithin (name : String) : List (Value × Value) → Bool
  | [] => false
  | (key, value) :: rest =>
    key.text? == some name || hasKeyWithin name value || entriesHaveKeyWithin name rest

/-- Whether an item of a sequence has the key within. -/
def itemsHaveKeyWithin (name : String) : List Value → Bool
  | [] => false
  | item :: rest => hasKeyWithin name item || itemsHaveKeyWithin name rest

end

/-! ## Changing -/

section Over

variable {m : Type → Type} [Monad m]

/-- Change the values of a mapping one by one. -/
def overValues (f : String → Value → m Value) : Entries → m Entries
  | [] => pure []
  | (key, value) :: rest => do
    let value ← f key.keyText value
    return (key, value) :: (← overValues f rest)

/-- Change the items of a sequence one by one, the first being at position `i`. -/
def overIndexed (f : Nat → Value → m Value) (i : Nat) : List Value → m (List Value)
  | [] => pure []
  | item :: rest => do
    let item ← f i item
    return item :: (← overIndexed f (i + 1) rest)

/-- Change the jobs of a workflow. -/
def overJobs (f : Location → Entries → m Entries) : Value → m Value :=
  overKey "jobs" <| overEntries <| overValues fun name job =>
    overEntries (f (jobsLocation.key name)) job

/-- Change the mappings without tags among items. -/
def overMappings (f : Location → Entries → m Entries) (location : Location) :
    List Value → m (List Value) :=
  overIndexed (fun i item =>
    match item with
    | .mapping entries => return .mapping (← f (location.index i) entries)
    | item => pure item) 0

mutual

/-- Change the steps below a location. -/
def overStepsAt (f : Location → Entries → m Entries) (location : Location) : Value → m Value
  | .mapping entries => return .mapping (← overStepsOfEntries f location entries)
  | .sequence items => return .sequence (← overStepsOfItems f location 0 items)
  | .tagged tag value => return .tagged tag (← overStepsAt f location value)
  | value => pure value

/-- Change the steps in the values of a mapping. -/
def overStepsOfEntries (f : Location → Entries → m Entries) (location : Location) :
    List (Value × Value) → m (List (Value × Value))
  | [] => pure []
  | (key, value) :: rest => do
    let here := location.key key.keyText
    let value ←
      if key.keyText = "steps" ∧ value.isSequence then
        Value.sequence <$> overMappings f here value.itemsOf
      else overStepsAt f here value
    return (key, value) :: (← overStepsOfEntries f location rest)

/-- Change the steps in the items of a sequence, from position `i` on. -/
def overStepsOfItems (f : Location → Entries → m Entries) (location : Location) (i : Nat) :
    List Value → m (List Value)
  | [] => pure []
  | item :: rest => do
    let item ← overStepsAt f (location.index i) item
    return item :: (← overStepsOfItems f location (i + 1) rest)

end

/-- Change the steps of a document. -/
def overSteps (f : Location → Entries → m Entries) (doc : Value) : m Value :=
  doc.overStepsAt f Location.root

mutual

/-- Change the strings below a location, keys left alone. -/
def overStringsAt (f : Location → String → m String) (location : Location) : Value → m Value
  | .string s => return .string (← f location s)
  | .mapping entries => return .mapping (← overStringsOfEntries f location entries)
  | .sequence items => return .sequence (← overStringsOfItems f location 0 items)
  | .tagged tag value => return .tagged tag (← overStringsAt f location value)
  | value => pure value

/-- Change the strings in the values of a mapping. -/
def overStringsOfEntries (f : Location → String → m String) (location : Location) :
    List (Value × Value) → m (List (Value × Value))
  | [] => pure []
  | (key, value) :: rest => do
    let value ← overStringsAt f (location.key key.keyText) value
    return (key, value) :: (← overStringsOfEntries f location rest)

/-- Change the strings in the items of a sequence, from position `i` on. -/
def overStringsOfItems (f : Location → String → m String) (location : Location) (i : Nat) :
    List Value → m (List Value)
  | [] => pure []
  | item :: rest => do
    let item ← overStringsAt f (location.index i) item
    return item :: (← overStringsOfItems f location (i + 1) rest)

end

/-- Change the strings of a document. -/
def overStrings (f : Location → String → m String) (doc : Value) : m Value :=
  doc.overStringsAt f Location.root

end Over

end WorkflowRecipes.Value
