import WorkflowRecipes.Cron
import WorkflowRecipes.Document.Access
import WorkflowRecipes.Document.Location
import WorkflowRecipes.Path.Kind
import WorkflowRecipes.Amendment.Edit

/-!
# Triggers of a workflow

The key `on` of a workflow names one event, lists several, or maps events to their settings. An
event is added to the mapping, into which the two other shapes are turned first.
-/

namespace WorkflowRecipes

namespace Trigger

/-- The location of the triggers. -/
def location : Location := Location.root.key "on"

/-- Whether triggers name an event, in any of the three shapes. -/
def hasEvent (event : String) : Value → Bool
  | .string s => s == event
  | .sequence items => items.any fun item => item.text? == some event
  | .mapping entries => Entries.hasKey entries event
  | _ => false

/-- The events as the keys of a mapping, unless the triggers have another shape. -/
def events? : Value → Option Entries
  | .mapping entries => some entries
  | .string s => some [(.string s, .null)]
  | .sequence items =>
    (items.mapM Value.text?).map fun names =>
      Entries.ofList (names.map fun name => (.string name, .null))
  | _ => none

/-- Add an event to the triggers, unless they name it already. -/
def addTo (event : String) (settings : Value) (triggers : Value) : Editing Value :=
  if hasEvent event triggers then pure triggers
  else
    match events? triggers with
    | none => pure triggers
    | some events =>
      .one (location.key event) ("added " ++ event) (.mapping (events.set event settings))

/-- Add an event to a workflow. -/
def add (event : String) (settings : Value) (doc : Value) : Editing Value :=
  doc.overKey "on" (addTo event settings)

/-- Let a workflow be started by hand. -/
def addManual (doc : Value) : Editing Value := add "workflow_dispatch" .null doc

/-- Drop the schedule from the events. -/
def dropSchedule (events : Entries) : Editing Entries :=
  if events.hasKey "schedule" then
    .one (location.key "schedule") "removed schedule" (events.erase "schedule")
  else pure events

/-- Stop a workflow from running on a schedule. -/
def removeCron (doc : Value) : Editing Value := doc.overKey "on" (Value.overEntries dropSchedule)

end Trigger

/-- The options for running workflows on a schedule. A macro becomes an expression once, so that all
files get the same one. -/
structure AddCron where
  cron : String
  fileGlob : Option String := none
  resolved : Option String := none
  deriving Repr, DecidableEq

namespace AddCron

/-- Fix the expression, unless it is fixed already. -/
def resolve {σ : Type} [RandomSource σ] (options : AddCron) (source : σ) : AddCron × σ :=
  match options.resolved with
  | some _ => (options, source)
  | none =>
    let (expression, source) := Cron.resolve (trimmed options.cron) source
    ({ options with resolved := some expression }, source)

/-- The expression; one that is not fixed yet is made from a stream of zeros. -/
def expression (options : AddCron) : String :=
  ((options.resolve ({} : Draws)).1.resolved).getD options.cron

/-- The problems with the options. -/
def problems (options : AddCron) : List String :=
  ((Cron.problem? options.cron).map Cron.Problem.message).toList ++
    (options.fileGlob.bind Glob.problem?).toList

/-- Whether a path is that of a workflow to be changed. -/
def isTarget (options : AddCron) (path : String) : Bool :=
  Path.isWorkflowNamed path options.fileGlob

/-- Add the schedule. -/
def visit (options : AddCron) (doc : Value) : Editing Value :=
  Trigger.add "schedule"
    (.sequence [.mapping [(.string "cron", .string options.expression)]]) doc

end AddCron

end WorkflowRecipes
