import WorkflowRecipes.ActionRef
import WorkflowRecipes.Document.Walk
import WorkflowRecipes.Amendment.Edit
import WorkflowRecipes.Text.Blank
import WorkflowRecipes.Text.JsonString

/-!
# Actions of steps

Another action or another ref in the place of one that steps use, and the new inputs of the action
that sends messages to Slack.
-/

namespace WorkflowRecipes

namespace Retarget

/-- Let a step that uses the action use `target` instead. -/
def step (action target : String) (location : Location) (step : Entries) : Editing Entries :=
  match step.uses? with
  | some old =>
    if (ActionRef.ofText old).isNamed action ∧ old ≠ target then
      .one (location.key "uses") (arrow old target) (step.set "uses" (.string target))
    else pure step
  | none => pure step

/-- Let all steps that use the action use `target` instead. -/
def all (action target : String) (doc : Value) : Editing Value :=
  doc.overSteps (step action target)

end Retarget

/-- The options for changing an action. -/
structure ChangeAction where
  oldAction : String
  newAction : String
  newVersion : String
  deriving Repr, DecidableEq

namespace ChangeAction

/-- The problem with an option that must not be empty. -/
def blankProblem (field value : String) : List String :=
  if isBlankText value then [field ++ " must not be empty"] else []

/-- The problems with the options. -/
def problems (options : ChangeAction) : List String :=
  blankProblem "old-action" options.oldAction ++ blankProblem "new-action" options.newAction ++
    blankProblem "new-version" options.newVersion ++
    (if holds options.oldAction "@" || holds options.newAction "@" then
      ["actions must not carry an @ref; use new-version"]
    else [])

/-- Change the action. -/
def visit (options : ChangeAction) (doc : Value) : Editing Value :=
  Retarget.all options.oldAction (options.newAction ++ "@" ++ options.newVersion) doc

end ChangeAction

/-- The options for changing the ref of an action. -/
structure ChangeActionVersion where
  action : String
  version : String
  deriving Repr, DecidableEq

namespace ChangeActionVersion

/-- The problems with the options. -/
def problems (options : ChangeActionVersion) : List String :=
  (if isBlankText options.action || holds options.action "@" then
    ["action must be a non-empty name without @ref"]
  else []) ++
    (if isBlankText options.version then ["version must not be empty"] else [])

/-- Change the ref. -/
def visit (options : ChangeActionVersion) (doc : Value) : Editing Value :=
  Retarget.all options.action (options.action ++ "@" ++ options.version) doc

end ChangeActionVersion

namespace Slack

/-- The ref that steps are moved to. -/
def target : String := "slackapi/slack-github-action@v2.0.0"

/-- How the refs start that steps are moved from. -/
def source : String := "slackapi/slack-github-action@v1"

/-- What the old inputs say. -/
structure Message where
  token : String
  channel : String
  text : String
  deriving Repr, DecidableEq

/-- What a step with the old inputs says, if it has all of them. -/
def message? (step : Entries) : Option Message :=
  let input (part key : String) :=
    ((step.get? part).bind fun entries => entries.get? key).bind Value.scalarText?
  (input "env" "SLACK_BOT_TOKEN").bind fun token =>
    (input "with" "channel-id").bind fun channel =>
      (input "with" "slack-message").map fun text => ⟨token, channel, text⟩

/-- The block that the new inputs ask for. -/
def payload (message : Message) : String :=
  "channel: " ++ jsonQuoted message.channel ++ "\ntext: " ++ jsonQuoted message.text ++ "\n"

/-- The environment of a step without the token, and without itself if nothing else is in it. -/
def dropToken (step : Entries) : Entries :=
  match (step.get? "env").bind Value.entries? with
  | none => step
  | some environment =>
    if (environment.erase "SLACK_BOT_TOKEN").isEmpty then step.erase "env"
    else
      Id.run <| step.overKey "env" <| Value.overEntries fun e => pure (e.erase "SLACK_BOT_TOKEN")

/-- The new inputs in the place of the old ones. -/
def newInputs (message : Message) (inputs : Entries) : Entries :=
  ((((inputs.erase "channel-id").erase "slack-message").set "method"
    (.string "chat.postMessage")).set "token" (.string message.token)).set "payload"
    (.string (payload message))

/-- A step with the new inputs. -/
def upgraded (message : Message) (step : Entries) : Entries :=
  let step := Id.run <| (dropToken step).overKey "with" <| Value.overEntries fun inputs =>
    pure (newInputs message inputs)
  step.set "uses" (.string target)

/-- Move one step. -/
def step (location : Location) (step : Entries) : Editing Entries :=
  if step.uses?.any fun uses => startsWith uses source then
    match message? step with
    | some message => .one location ("migrated to " ++ target) (upgraded message step)
    | none => pure step
  else pure step

/-- Move all steps. -/
def visit (doc : Value) : Editing Value := doc.overSteps step

end Slack

end WorkflowRecipes
