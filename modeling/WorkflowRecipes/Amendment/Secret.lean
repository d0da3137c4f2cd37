import WorkflowRecipes.Document.Walk
import WorkflowRecipes.Path.Kind
import WorkflowRecipes.Amendment.Edit
import WorkflowRecipes.Text.Blank

/-!
# Secrets

Secrets under other names, in expressions and as keys, and all secrets passed on at once.
-/

namespace WorkflowRecipes

namespace SecretReference

/-- What follows the expression for a secret that a text starts with. Blanks may stand inside the
braces. -/
def rest? (name : List Char) (text : List Char) : Option (List Char) :=
  (Text.dropPrefix? "$\x7b\x7b".toList text).bind fun inner =>
    (Text.dropPrefix? ("secrets.".toList ++ name) (Text.trimStart inner)).bind fun after =>
      Text.dropPrefix? "\x7d\x7d".toList (Text.trimStart after)

/-- A text with every expression for the secret replaced. A replaced expression is passed over,
which `skip`, the number of its characters still to come, takes care of. -/
def replaceFrom (name new : List Char) : Nat → List Char → List Char
  | _, [] => []
  | skip + 1, _ :: text => replaceFrom name new skip text
  | 0, c :: text =>
    match rest? name (c :: text) with
    | some rest => new ++ replaceFrom name new (text.length - rest.length) text
    | none => c :: replaceFrom name new 0 text

/-- The expression for a secret. -/
def written (name : String) : String := "$\x7b\x7b secrets." ++ name ++ " \x7d\x7d"

/-- A string with every expression for a secret replaced by the one for another. -/
def replace (old new text : String) : String :=
  String.ofList (replaceFrom old.toList (written new).toList 0 text.toList)

/-- Whether a string is the expression for a secret and nothing else. -/
def isWhole (name text : String) : Bool := rest? name.toList text.toList == some []

example : replace "A" "B" "x $\x7b\x7bsecrets.A \x7d\x7d" = "x $\x7b\x7b secrets.B \x7d\x7d" := by
  decide

end SecretReference

/-- The problem with an optional glob. -/
def globProblems (glob : Option String) : List String := (glob.bind Glob.problem?).toList

/-- The options for replacing a secret. -/
structure ReplaceSecret where
  oldName : String
  newName : String
  fileGlob : Option String := none
  deriving Repr, DecidableEq

namespace ReplaceSecret

/-- The problems with the options. -/
def problems (options : ReplaceSecret) : List String :=
  (if isBlankText options.oldName || isBlankText options.newName then
    ["secret names must not be empty"]
  else []) ++ globProblems options.fileGlob

/-- Replace the secret in one string. -/
def replaceIn (options : ReplaceSecret) (location : Location) (text : String) : Editing String :=
  let new := SecretReference.replace options.oldName options.newName text
  if new = text then pure text
  else
    .one location (arrow ("secrets." ++ options.oldName) ("secrets." ++ options.newName)) new

/-- Replace the secret in all strings. -/
def visit (options : ReplaceSecret) (doc : Value) : Editing Value :=
  doc.overStrings options.replaceIn

end ReplaceSecret

/-- The options for renaming keys. -/
structure RenameKey where
  oldKey : String
  newKey : String
  fileGlob : Option String := none
  deriving Repr, DecidableEq

namespace RenameKey

/-- The problems with the options. -/
def problems (options : RenameKey) : List String :=
  (if isBlankText options.oldKey || isBlankText options.newKey then
    ["key names must not be empty"]
  else []) ++
    (if options.oldKey = options.newKey then ["old-key-name and new-key-name are the same"]
      else []) ++
    globProblems options.fileGlob

/-- Whether the key of a mapping is renamed: it is present, and the new one is not. -/
def isRenamedIn (options : RenameKey) (entries : Entries) : Bool :=
  entries.hasKey options.oldKey && !entries.hasKey options.newKey

/-- A key after renaming; tags are looked through. -/
def newKeyOf (options : RenameKey) (renamed : Bool) (key : Value) : Value :=
  if renamed && key.text? == some options.oldKey then .string options.newKey else key

/-- Entries put together one by one: of two with the same key the later value wins and the earlier
place is kept. -/
def unite {α : Type} (entries : List (Value × α)) : List (Value × α) :=
  entries.foldl (fun united (key, value) =>
    if united.any fun e => key.same e.1 then
      united.map fun e => if key.same e.1 then (key, value) else e
    else united ++ [(key, value)]) []

/-- The entries whose values are still to be changed, changed in order. -/
def inOrder : List (Value × Editing Value) → Editing Entries
  | [] => pure []
  | (key, value) :: rest => do
    let value ← value
    return (key, value) :: (← inOrder rest)

mutual

/-- Rename the key in the mappings at and below a location, each before those below it. -/
def renameAt (options : RenameKey) (location : Location) : Value → Editing Value
  | .mapping entries =>
    let renamed := options.isRenamedIn entries
    let inner := renameInEntries options renamed location entries
    let note :=
      if renamed then
        Editing.note (location.key options.newKey)
          ("key " ++ arrow options.oldKey options.newKey)
      else pure ()
    note >>= fun _ => Value.mapping <$> inOrder (if renamed then unite inner else inner)
  | .sequence items => Value.sequence <$> renameInItems options location 0 items
  | value => pure value

/-- The entries of a mapping under their new keys, with what is done to their values. -/
def renameInEntries (options : RenameKey) (renamed : Bool) (location : Location) :
    List (Value × Value) → List (Value × Editing Value)
  | [] => []
  | (key, value) :: rest =>
    let key := options.newKeyOf renamed key
    (key, renameAt options (location.key key.keyText) value) ::
      renameInEntries options renamed location rest

/-- Rename the key below the items of a sequence, from position `i` on. -/
def renameInItems (options : RenameKey) (location : Location) (i : Nat) :
    List Value → Editing (List Value)
  | [] => pure []
  | item :: rest => do
    let item ← renameAt options (location.index i) item
    return item :: (← renameInItems options location (i + 1) rest)

end

/-- Rename the key everywhere. -/
def visit (options : RenameKey) (doc : Value) : Editing Value :=
  if options.oldKey = options.newKey then pure doc else renameAt options Location.root doc

end RenameKey

namespace InheritSecrets

/-- Whether every secret is passed on under its own name, and there is at least one. -/
def passesAllOn (secrets : Entries) : Bool :=
  !secrets.isEmpty && secrets.all fun (key, value) =>
    match key.text?, value.text? with
    | some name, some text => SecretReference.isWhole name text
    | _, _ => false

/-- Inherit the secrets of a job that are all passed on. -/
def inherit (location : Location) (secrets : Value) : Editing Value :=
  if secrets.entries?.any passesAllOn then
    .one (location.key "secrets") "secrets: inherit" (.string "inherit")
  else pure secrets

/-- Inherit the secrets of all jobs that pass them on. -/
def visit (doc : Value) : Editing Value :=
  doc.overJobs fun location job => job.overKey "secrets" (inherit location)

end InheritSecrets

end WorkflowRecipes
