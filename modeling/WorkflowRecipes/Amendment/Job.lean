import WorkflowRecipes.ActionRef
import WorkflowRecipes.Document.Walk
import WorkflowRecipes.Amendment.Edit
import WorkflowRecipes.Text.Blank

/-!
# Single jobs

A step that cancels earlier runs, put in front of a job, and the runners that a job asks for.
-/

namespace WorkflowRecipes

/-- The options for cancelling earlier runs. -/
structure CancelEarlier where
  accessToken : Option String := none
  job : String := "build"
  deriving Repr, DecidableEq

namespace CancelEarlier

/-- The action that cancels earlier runs. -/
def action : String := "styfle/cancel-workflow-action@0.9.1"

/-- The problems with the options. -/
def problems (options : CancelEarlier) : List String :=
  if isBlankText options.job then ["job must not be empty"] else []

/-- The expression for the token: a secret if one is given, else the token of the workflow. -/
def token (options : CancelEarlier) : String :=
  match (options.accessToken.map trimmed).filter (· != "") with
  | some secret => "$\x7b\x7b secrets." ++ secret ++ " \x7d\x7d"
  | none => "$\x7b\x7b github.token \x7d\x7d"

/-- The step that cancels earlier runs. -/
def step (options : CancelEarlier) : Value :=
  .mapping [(.string "uses", .string action),
    (.string "with", .mapping [(.string "access_token", .string options.token)])]

/-- The steps of the job. -/
def stepsLocation (options : CancelEarlier) : Location :=
  Location.root.keys ["jobs", options.job, "steps"]

/-- Put the step in front of steps that start with an action, unless that action is the one. -/
def prepend (options : CancelEarlier) (steps : List Value) : Editing (List Value) :=
  match (steps.head?.bind Value.entries?).bind Entries.uses? with
  | none => pure steps
  | some uses =>
    if holds uses "cancel-workflow-action" then pure steps
    else
      .one (options.stepsLocation.index 0) ("prepended " ++ action) (options.step :: steps)

/-- Put the step in front of the job. -/
def visit (options : CancelEarlier) (doc : Value) : Editing Value :=
  doc.overKeys ["jobs", options.job, "steps"] (Value.overItems options.prepend)

end CancelEarlier

/-- The options for replacing the runners of a job. -/
structure ReplaceRunners where
  job : String
  runners : List String
  deriving Repr, DecidableEq

namespace ReplaceRunners

/-- The problems with the options. -/
def problems (options : ReplaceRunners) : List String :=
  (if isBlankText options.job then ["job-name must not be empty"] else []) ++
    (if options.runners.isEmpty then ["runners must list at least one runner"] else [])

/-- The value of `runs-on` that is wanted. -/
def wanted (options : ReplaceRunners) : Value := .sequence (options.runners.map .string)

/-- Replace the runners, unless they are the wanted ones. -/
def replace (options : ReplaceRunners) (slot : Value) : Editing Value :=
  if slot.same options.wanted then pure slot
  else
    .one (Location.root.keys ["jobs", options.job, "runs-on"])
      ("runs-on: [" ++ ", ".intercalate options.runners ++ "]") options.wanted

/-- Replace the runners of the job. -/
def visit (options : ReplaceRunners) (doc : Value) : Editing Value :=
  doc.overKeys ["jobs", options.job, "runs-on"] options.replace

end ReplaceRunners

end WorkflowRecipes
