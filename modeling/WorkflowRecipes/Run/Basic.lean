import WorkflowRecipes.Digest
import WorkflowRecipes.Plan.Basic
import WorkflowRecipes.Run.Event

/-!
# Runs

A run makes a plan and carries it out, file by file, in order. Each file is read again after it was
written, and what happens is appended to the log of the policy, if it names one. A dry run and a
check end with the plan.
-/

namespace WorkflowRecipes

/-- The version of this program. -/
def programVersion : String := "0.3.0"

/-- What is to be run, and how. -/
structure Run where
  name : String
  recipes : List Recipe
  policy : Policy := {}
  /-- The root of the repository. -/
  root : String
  /-- Whether all files are to be left as they are. -/
  isDry : Bool := false
  /-- Whether all files are to be left as they are, and it is an error if one would be modified. -/
  isCheck : Bool := false
  deriving Repr

/-- What a run did. -/
structure RunReport where
  runName : String
  plan : Plan
  modified : Nat
  deriving Repr, DecidableEq

/-- The names of the recipes that edited a file, in order. -/
def FilePlan.editors (file : FilePlan) : List String :=
  (file.edits.map (·.recipe)).eraseReps

namespace Run

/-- The run of a configuration. -/
def ofConfig (config : Config) (root : String) : Run :=
  { name := config.name, recipes := config.recipes, policy := config.policy, root }

/-- Append an event to the log, if there is one. -/
def log (setting : Setting) (run : Run) (event : RunEvent) : Work RunError Unit :=
  match run.policy.eventLog with
  | some path => event.append setting (Path.join run.root path)
  | none => pure ()

/-- The event of a modified file whose new content has a digest. -/
def modifiedEvent (setting : Setting) (file : FilePlan) (digest : String) : RunEvent :=
  .modified setting.runName file.path file.editors file.edits.length (Digest.ofText file.before)
    digest

/-- Write the new text of a file, see that it is there, and log it. -/
def modifyFile (setting : Setting) (run : Run) (file : FilePlan) (text : String) :
    Work RunError Unit := do
  let place := Path.join run.root file.path
  Disk.blame (.write place) <| Disk.replaceFile setting place text
  let content ← Disk.blame (.read place) <| Disk.read place
  let digest := Digest.ofBytes content.toList
  if digest ≠ Digest.ofText text then throw (.write place .changed)
  run.log setting (modifiedEvent setting file digest)

/-- The event of a finding in a file. -/
def findingEvent (setting : Setting) (file : FilePlan) (finding : Signed Finding) : RunEvent :=
  .found setting.runName file.path finding.recipe finding.note.location.text finding.note.message

/-- The event at the start of a run. -/
def startEvent (setting : Setting) (run : Run) : RunEvent :=
  .started setting.runName run.name (run.recipes.map (·.name)) programVersion

/-- Modify a file if that is its plan, and log its findings. The result tells whether the file was
modified. -/
def settle (setting : Setting) (run : Run) (file : FilePlan) : Work RunError Bool := do
  let isModified ← match file.action, file.after with
    | .modify, some text => do
      run.modifyFile setting file text
      pure true
    | _, _ => pure false
  file.findings.forM fun finding => run.log setting (findingEvent setting file finding)
  return isModified

/-- Carry out a plan, and count the files that were modified. -/
def carryOut (setting : Setting) (run : Run) (plan : Plan) : Work RunError Nat := do
  run.log setting (startEvent setting run)
  let outcomes ← plan.files.mapM (run.settle setting)
  let modified := outcomes.count true
  run.log setting <|
    .completed setting.runName modified plan.kept plan.findings.length
  return modified

/-- Make the plan and carry it out. -/
def apply (setting : Setting) (run : Run) : Work RunError RunReport := do
  let plan ← Plan.ofRepository run.name run.root run.recipes
  if run.isCheck && plan.modified > 0 then throw (.pending plan.modified)
  let modified ← if run.isDry || run.isCheck then pure 0 else run.carryOut setting plan
  if run.policy.failsOnFindings && !plan.findings.isEmpty then
    throw (.findings plan.findings.length)
  return { runName := setting.runName, plan, modified }

end Run

end WorkflowRecipes
