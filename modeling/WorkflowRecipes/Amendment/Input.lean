import WorkflowRecipes.Document.Walk
import WorkflowRecipes.Amendment.Edit
import WorkflowRecipes.Text.Blank

/-!
# Inputs of workflows

Inputs that a called workflow no longer takes, and inputs of a workflow that it does not use.
-/

namespace WorkflowRecipes

/-- The options for dropping an input from the calls of a workflow. -/
structure DropInput where
  workflow : String
  version : String
  input : String
  deriving Repr, DecidableEq

namespace DropInput

/-- The problem with an option that must not be empty. -/
def blankProblem (field value : String) : List String :=
  if isBlankText value then [field ++ " must not be empty"] else []

/-- The problems with the options. -/
def problems (options : DropInput) : List String :=
  blankProblem "workflow-reference" options.workflow ++ blankProblem "version" options.version ++
    blankProblem "input-argument-name" options.input

/-- The text of a call. -/
def target (options : DropInput) : String := options.workflow ++ "@" ++ options.version

/-- Entries without a key that is given. -/
def without (hidden : Option String) (entries : Entries) : Entries :=
  match hidden with
  | some name => entries.erase name
  | none => entries

/-- What is left of the value under `with` of a call; nothing if it is an empty mapping then. -/
def stripped? (options : DropInput) (value : Value) : Option Value :=
  match value.entries? with
  | some inputs =>
    let left := inputs.erase options.input
    if left.isEmpty then none
    else some (Id.run (value.overEntries fun _ => pure left))
  | none => some value

/-- Note that a call loses the input, if it has it. -/
def noteLoss (options : DropInput) (location : Location) (call : Entries) : Editing Unit :=
  if ((call.get? "with").bind Value.entries?).any fun inputs => inputs.hasKey options.input then
    Editing.note (location.keys ["with", options.input]) ("removed input " ++ options.input)
  else pure ()

/-- Whether a mapping is a call of the workflow. -/
def isCall (options : DropInput) (entries : Entries) : Bool :=
  entries.text? "uses" == some options.target

mutual

/-- Drop the input from the calls at and below a location, each before those below it. Of a mapping
at the location the key `hidden` is dropped as well, and before all else. -/
def dropAt (options : DropInput) (hidden : Option String) (location : Location) :
    Value → Editing Value
  | .mapping entries =>
    let call := options.isCall (without hidden entries)
    let note := if call then options.noteLoss location (without hidden entries) else pure ()
    note >>= fun _ => Value.mapping <$> dropInEntries options hidden call location entries
  | .sequence items => Value.sequence <$> dropInItems options location 0 items
  | value => pure value

/-- Drop the input below the entries of a mapping, which may be a call itself. -/
def dropInEntries (options : DropInput) (hidden : Option String) (call : Bool)
    (location : Location) : List (Value × Value) → Editing (List (Value × Value))
  | [] => pure []
  | (key, value) :: rest =>
    if hidden.any fun name => key.isKey name then dropInEntries options hidden call location rest
    else
      let inputs := call && key.isKey "with"
      if inputs && (options.stripped? value).isNone then
        dropInEntries options hidden call location rest
      else do
        let here := location.key key.keyText
        let value ← match value with
          | .tagged tag inner =>
            pure (if inputs then (options.stripped? (.tagged tag inner)).getD .null
              else .tagged tag inner)
          | value => dropAt options (if inputs then some options.input else none) here value
        return (key, value) :: (← dropInEntries options hidden call location rest)

/-- Drop the input below the items of a sequence, from position `i` on. -/
def dropInItems (options : DropInput) (location : Location) (i : Nat) :
    List Value → Editing (List Value)
  | [] => pure []
  | item :: rest => do
    let item ← dropAt options none (location.index i) item
    return item :: (← dropInItems options location (i + 1) rest)

end

/-- Drop the input from all calls. -/
def visit (options : DropInput) (doc : Value) : Editing Value :=
  dropAt options none Location.root doc

end DropInput

namespace UnusedInput

/-- Whether a character can stand in the name of an input. -/
def isNameChar (c : Char) : Bool := c.isAlphanum || c == '_' || c == '-'

/-- A text without the spaces, a point and the spaces around it that it starts with. -/
def dropPoint? (text : List Char) : Option (List Char) :=
  match text.dropWhile (· == ' ') with
  | '.' :: rest => some (rest.dropWhile (· == ' '))
  | _ => none

/-- The name of an input that a text starts with. -/
def name? : List Char → Option (List Char)
  | [] => none
  | c :: rest =>
    if c.isAlpha || c == '_' then some (c :: rest.takeWhile isNameChar) else none

/-- What follows the words, with points between and behind them, that a text starts with. -/
def dropWords? : List String → List Char → Option (List Char)
  | [], text => some text
  | word :: words, text =>
    ((Text.dropPrefix? word.toList text).bind dropPoint?).bind (dropWords? words)

/-- The name of the input that the expression at the start of a text reads, and what follows. -/
def usage? (text : List Char) : Option (List Char × List Char) :=
  let behind (words : List String) : Option (List Char × List Char) :=
    (dropWords? words text).bind fun rest =>
      (name? rest).map fun name => (name, rest.drop name.length)
  behind ["github", "event", "inputs"] <|> behind ["inputs"]

/-- The names of the inputs that a text reads. A reading is passed over, which `skip`, the number of
its characters still to come, takes care of. -/
def usagesFrom : Nat → List Char → List (List Char)
  | _, [] => []
  | skip + 1, _ :: text => usagesFrom skip text
  | 0, c :: text =>
    match usage? (c :: text) with
    | some (name, rest) => name :: usagesFrom (text.length - rest.length) text
    | none => usagesFrom 0 text

/-- The names of the inputs that the strings of a document read. -/
def used (doc : Value) : List String :=
  doc.strings.flatMap fun s => (usagesFrom 0 s.toList).map String.ofList

/-- The location of the inputs. -/
def location : Location := Location.root.keys ["on", "workflow_dispatch", "inputs"]

/-- The inputs that are used. -/
def keepUsed (used : List String) : Entries → Editing Entries
  | [] => pure []
  | (key, value) :: rest =>
    if used.contains key.keyText then do
      return (key, value) :: (← keepUsed used rest)
    else do
      Editing.note (location.key key.keyText) ("removed unused input " ++ key.keyText)
      keepUsed used rest

/-- Settings of an event without inputs; nothing if they had nothing else. -/
def withoutInputs (settings : Value) : Value :=
  match settings.entries? with
  | some entries =>
    if (entries.erase "inputs").isEmpty then .null
    else Id.run (settings.overEntries fun e => pure (e.erase "inputs"))
  | none => settings

/-- Drop the unused inputs from the settings of the event, and the inputs themselves if the last one
was dropped. -/
def dropUnused (used : List String) (settings : Value) : Editing Value :=
  match (settings.get? "inputs").bind Value.entries? with
  | none => pure settings
  | some inputs => do
    let kept ← keepUsed used inputs
    if kept.isEmpty && !inputs.isEmpty then return withoutInputs settings
    else settings.overKey "inputs" (Value.overEntries fun _ => pure kept)

/-- Drop the inputs that nothing reads. -/
def visit (doc : Value) : Editing Value :=
  doc.overKeys ["on", "workflow_dispatch"] (dropUnused (used doc))

end UnusedInput

end WorkflowRecipes
