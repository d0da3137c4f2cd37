import WorkflowRecipes.ActionRef
import WorkflowRecipes.Document.Walk
import WorkflowRecipes.Amendment.Edit
import WorkflowRecipes.Text.Blank
import WorkflowRecipes.Version

/-!
# Setting up Java

Amendments of steps that use `actions/setup-java`: the name of the distribution, the least version,
and the cache of dependencies. The least version of other tools is raised in the same way.
-/

namespace WorkflowRecipes

/-- The action that sets up Java. -/
def setupJava : String := "actions/setup-java"

namespace Distribution

/-- The first major version of the action that knows distributions. -/
def firstMajor : Nat := 2

/-- Whether a step uses a version of the action that knows distributions. -/
def isKnown (step : Entries) : Bool :=
  step.action?.any fun action =>
    action.isNamed setupJava && action.major?.any (firstMajor ≤ ·)

/-- Replace the distribution of one step, if `accepts` holds of it. -/
def replaceIn (accepts : String → Bool) (new : String) (location : Location) (step : Entries) :
    Editing Entries :=
  if isKnown step then
    step.overKey "with" <| Value.overKey "distribution" fun slot =>
      match slot.scalarText? with
      | some old =>
        if old ≠ new ∧ accepts old then
          .one (location.keys ["with", "distribution"]) (arrow old new) (slot.replacement new)
        else pure slot
      | none => pure slot
  else pure step

/-- Replace the distributions that `accepts` holds of. -/
def replace (accepts : String → Bool) (new : String) (doc : Value) : Editing Value :=
  doc.overSteps (replaceIn accepts new)

/-- Adopt's distributions with the usual virtual machine, by the name of what follows them. -/
def adoptToTemurin (doc : Value) : Editing Value :=
  replace (fun old => old == "adopt" || old == "adopt-hotspot") "temurin" doc

/-- Adopt's distribution with the OpenJ9 machine, by the name of what follows it. -/
def openJ9ToSemeru (doc : Value) : Editing Value := replace (· == "adopt-openj9") "semeru" doc

/-- Every distribution replaced by Temurin. -/
def preferTemurin (doc : Value) : Editing Value := replace (fun _ => true) "temurin" doc

end Distribution

/-- The options for replacing distributions. -/
structure ReplaceDistribution where
  old : List String
  new : String
  deriving Repr, DecidableEq

namespace ReplaceDistribution

/-- The problems with the options. -/
def problems (options : ReplaceDistribution) : List String :=
  (if options.old.isEmpty then ["from must list at least one distribution"] else []) ++
    (if isBlankText options.new then ["to must not be empty"] else [])

/-- Replace the listed distributions. -/
def visit (options : ReplaceDistribution) (doc : Value) : Editing Value :=
  Distribution.replace options.old.contains options.new doc

end ReplaceDistribution

namespace ToolVersion

/-- Raise a version to the least one wanted. -/
def raise (location : Location) (least : Nat) (slot : Value) : Editing Value :=
  match slot.scalarText? with
  | some old =>
    match Version.raised? old least with
    | some new => .one location (arrow old new) (slot.replacement new)
    | none => pure slot
  | none => pure slot

/-- Raise the version under `key` of a step that uses the action with a ref. -/
def raiseIn (action key : String) (least : Nat) (location : Location) (step : Entries) :
    Editing Entries :=
  if step.action?.any fun a => a.isNamed action && a.version.isSome then
    step.overKey "with" <| Value.overKey key <| raise (location.keys ["with", key]) least
  else pure step

/-- Raise the version under `key` of all steps that use the action with a ref. -/
def raiseAll (action key : String) (least : Nat) (doc : Value) : Editing Value :=
  doc.overSteps (raiseIn action key least)

/-- Raise the version of Java. -/
def raiseJava (least : Nat) (doc : Value) : Editing Value :=
  raiseAll setupJava "java-version" least doc

/-- Raise the version of Node. -/
def raiseNode (least : Nat) (doc : Value) : Editing Value :=
  raiseAll "actions/setup-node" "node-version" least doc

end ToolVersion

namespace JavaCache

/-- The text that a step runs. -/
def run? (step : Value) : Option String := (step.get? "run").bind Value.text?

/-- The build tool that the steps run. -/
def buildTool? (steps : List Value) : Option String :=
  let runs := steps.filterMap run?
  if runs.any fun run => holds run "gradle" then some "gradle"
  else if runs.any fun run => holds run "mvn" then some "maven"
  else none

/-- The location of the steps. -/
def stepsLocation : Location := Location.root.keys ["jobs", "build", "steps"]

/-- Switch the cache on in the inputs of a step, unless they say something about it. -/
def enableWith (tool : String) (location : Location) (inputs : Entries) : Editing Entries :=
  if inputs.hasKey "cache" then pure inputs
  else
    .one (location.keys ["with", "cache"]) ("cache: " ++ tool) (inputs.set "cache" (.string tool))

/-- Switch the cache on in one step. -/
def enableIn (tool : String) (location : Location) (step : Entries) : Editing Entries :=
  if step.usesAction setupJava && step.hasChild "with" then
    step.overChild "with" (enableWith tool location)
  else pure step

/-- Whether a value is a step with the separate cache action. -/
def isCacheStep (step : Value) : Bool :=
  step.entries?.any fun entries => entries.usesAction "actions/cache"

/-- The steps without those of the separate cache action, the first being at position `i`. -/
def dropCacheSteps (i : Nat) : List Value → Editing (List Value)
  | [] => pure []
  | step :: rest =>
    if isCacheStep step then do
      Editing.note (stepsLocation.index i) "removed actions/cache step"
      dropCacheSteps (i + 1) rest
    else return step :: (← dropCacheSteps (i + 1) rest)

/-- Switch the cache on in the steps of the job, and drop the separate cache steps if that changed
anything. -/
def overJobSteps (steps : List Value) : Editing (List Value) :=
  match buildTool? steps with
  | none => pure steps
  | some tool =>
    let enabled := Value.overIndexed (fun i step =>
      step.overEntries (enableIn tool (stepsLocation.index i))) 0 steps
    if enabled.edits.isEmpty then enabled else enabled >>= dropCacheSteps 0

/-- Use the cache of the action instead of a separate one, in the job `build`. -/
def visit (doc : Value) : Editing Value :=
  doc.overKeys ["jobs", "build", "steps"] (Value.overItems overJobSteps)

end JavaCache

end WorkflowRecipes
