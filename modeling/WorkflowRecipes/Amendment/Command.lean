import WorkflowRecipes.ActionRef
import WorkflowRecipes.Document.Walk
import WorkflowRecipes.Recipe.Context
import WorkflowRecipes.Amendment.Edit
import WorkflowRecipes.Text.Blank

/-!
# Commands that jobs run

The wrapper script in the place of the build tool `gradle`, and `uv` in the place of `pip`.
-/

namespace WorkflowRecipes

namespace GradleWrapper

/-- How the wrapper is called on a runner. -/
def call? (runner : String) : Option String :=
  if startsWith runner "ubuntu-" || startsWith runner "macos-" then some "./gradlew "
  else if startsWith runner "windows-" then some "gradlew "
  else none

/-- A line that calls the wrapper where it called the tool. -/
def overLine (call : List Char) (line : List Char) : List Char :=
  match Text.dropPrefix? "gradle ".toList line with
  | some rest => call ++ rest
  | none => line

/-- A script that calls the wrapper on the lines where it called the tool. -/
def overScript (call script : String) : String :=
  String.ofList (Text.join ['\n'] ((Text.pieces '\n' script.toList).map (overLine call.toList)))

/-- Call the wrapper in one script. -/
def change (call : String) (location : Location) (script : String) : Editing String :=
  let new := overScript call script
  if new = script then pure script
  else
    .one location (arrow "gradle" (String.ofList (Text.trimEnd call.toList))) new

mutual

/-- Call the wrapper in the scripts below a location: the strings under keys `run`. -/
def changeAt (call : String) (location : Location) : Value → Editing Value
  | .mapping entries => Value.mapping <$> changeInEntries call location entries
  | .sequence items => Value.sequence <$> changeInItems call location 0 items
  | value => pure value

/-- Call the wrapper in the scripts of a mapping and below. -/
def changeInEntries (call : String) (location : Location) :
    List (Value × Value) → Editing (List (Value × Value))
  | [] => pure []
  | (key, value) :: rest => do
    let here := location.key key.keyText
    let value ← match value with
      | .string script =>
        if key.keyText = "run" then Value.string <$> change call here script
        else pure (.string script)
      | value => changeAt call here value
    return (key, value) :: (← changeInEntries call location rest)

/-- Call the wrapper below the items of a sequence, from position `i` on. -/
def changeInItems (call : String) (location : Location) (i : Nat) :
    List Value → Editing (List Value)
  | [] => pure []
  | item :: rest => do
    let item ← changeAt call (location.index i) item
    return item :: (← changeInItems call location (i + 1) rest)

end

/-- Call the wrapper in one job, if its runner is known. -/
def overJob (location : Location) (job : Entries) : Editing Entries :=
  match (job.text? "runs-on").bind call? with
  | some call => changeInEntries call location job
  | none => pure job

/-- Call the wrapper in all jobs, if the repository has it. -/
def visit (context : Context) (doc : Value) : Editing Value :=
  if context.hasGradleWrapper then doc.overJobs overJob else pure doc

end GradleWrapper

/-- How `uv` installs what a project needs. -/
inductive SyncStrategy where
  | basic
  | locked
  | full
  deriving Repr, DecidableEq

/-- The command of a strategy. -/
def SyncStrategy.command : SyncStrategy → String
  | .basic => "uv sync"
  | .locked => "uv sync --locked"
  | .full => "uv sync --all-extras --dev"

/-- The options for moving to `uv`. -/
structure MoveToUv where
  version : String := "v6"
  strategy : SyncStrategy := .basic
  convertCommands : Bool := true
  enableCache : Bool := true
  deriving Repr, DecidableEq

namespace MoveToUv

/-- The action that sets up Python. -/
def setupPython : String := "actions/setup-python"

/-- The action that sets up `uv`. -/
def setupUv : String := "astral-sh/setup-uv"

/-- The problems with the options. -/
def problems (options : MoveToUv) : List String :=
  if isBlankText options.version then ["uv-version must not be empty"] else []

/-- The commands that install what a project needs. -/
def installCommands : List String :=
  ["pip install -r requirements.txt", "pip install .", "pip install -e ."]

/-- The command that brings `pip` up to date. -/
def upgradeCommand : String := "python -m pip install --upgrade pip"

/-- What a command becomes, if it changes. -/
def asUv? (options : MoveToUv) (command : String) : Option String :=
  if installCommands.contains command then some options.strategy.command
  else
    (dropPrefix? command "python -m ").bind fun module =>
      if module == "" || holds module "\n" then none else some ("uv run " ++ module)

/-- The inputs of the action for Python as those of the action for `uv`, with what was changed. -/
def convertInputs (options : MoveToUv) (location : Location) (inputs : Entries) :
    Editing Entries := do
  let pruned := inputs.erase "cache-dependency-path"
  if inputs.hasKey "cache-dependency-path" then
    Editing.note location "removed cache-dependency-path"
  if options.enableCache && pruned.text? "cache" == some "pip" &&
      !pruned.hasKey "enable-cache" then
    Editing.note location "cache: pip -> enable-cache: true"
    return Entries.ofList (pruned.map fun (key, value) =>
      if key.text? == some "cache" then (.string "enable-cache", .string "true")
      else (key, value))
  else return pruned

/-- Whether a step sets up Python. -/
def setsUpPython (step : Value) : Bool :=
  step.entries?.any fun entries => entries.usesAction setupPython

/-- Whether a step brings `pip` up to date and does nothing else. -/
def isUpgrade (step : Value) : Bool :=
  (step.entries?.bind fun entries => entries.text? "run") == some upgradeCommand

/-- Change one step. -/
def overStep (options : MoveToUv) (location : Location) (step : Entries) : Editing Entries :=
  if step.usesAction setupPython then do
    let old := step.uses?.getD setupPython
    let new := setupUv ++ "@" ++ options.version
    Editing.note (location.key "uses") (arrow old new)
    (step.set "uses" (.string new)).overKey "with" <|
      Value.overEntries (options.convertInputs (location.key "with"))
  else
    match step.text? "run" with
    | some old =>
      match if options.convertCommands then options.asUv? old else none with
      | some new =>
        .one (location.key "run") (arrow old new) (step.set "run" (.string new))
      | none => pure step
    | none => pure step

/-- The steps without those that bring `pip` up to date, the first being at position `i`. -/
def dropUpgrades (location : Location) (i : Nat) : List Value → Editing (List Value)
  | [] => pure []
  | step :: rest =>
    if isUpgrade step then do
      Editing.note (location.index i) "removed pip self-upgrade step"
      dropUpgrades location (i + 1) rest
    else return step :: (← dropUpgrades location (i + 1) rest)

/-- Change the steps of a job that sets up Python. -/
def overJobSteps (options : MoveToUv) (location : Location) (steps : List Value) :
    Editing (List Value) :=
  if steps.any setsUpPython then do
    let steps ← if options.convertCommands then dropUpgrades location 0 steps else pure steps
    Value.overIndexed (fun i step =>
      step.overEntries (options.overStep (location.index i))) 0 steps
  else pure steps

/-- Change all jobs. -/
def visit (options : MoveToUv) (doc : Value) : Editing Value :=
  doc.overJobs fun location job =>
    job.overKey "steps" (Value.overItems (options.overJobSteps (location.key "steps")))

end MoveToUv

end WorkflowRecipes
