import WorkflowRecipes.Plan.Discover
import WorkflowRecipes.Plan.File
import WorkflowRecipes.Run.Error

/-!
# Plans

A plan holds one `FilePlan` for each file that is found, in order. A file that no recipe is meant
for is not read, and one that is no text is skipped.
-/

namespace WorkflowRecipes

/-- The plan for a repository. -/
structure Plan where
  name : String
  files : List FilePlan
  deriving Repr, DecidableEq

namespace Plan

/-- How many files are to have an action. -/
def count (plan : Plan) (action : PlanAction) : Nat :=
  plan.files.countP fun file => file.action = action

/-- How many files are to be modified. -/
def modified (plan : Plan) : Nat := plan.count .modify

/-- How many files stay as they are. -/
def kept (plan : Plan) : Nat := plan.count .keep

/-- How many files are skipped. -/
def skipped (plan : Plan) : Nat := plan.count .skip

/-- The findings with the paths of their files. -/
def findings (plan : Plan) : List (String × Signed Finding) :=
  plan.files.flatMap fun file => file.findings.map (file.path, ·)

/-- The plan for one file of a repository. -/
def ofFile (root : String) (hasGradleWrapper : Bool) (recipes : List Recipe) (path : String) :
    Work RunError FilePlan := do
  if !recipes.any fun recipe => recipe.isMeantFor path then return { path }
  let place := Path.join root path
  let text? ← Disk.blame (.read place) <| Disk.readText? place
  match text? with
  | none => return { path, action := .skip }
  | some text =>
    match FilePlan.ofText { path, text, hasGradleWrapper } recipes with
    | .ok file => return file
    | .error fault => throw (.render path fault)

/-- The script that calls Gradle in the version a repository asks for. -/
def gradleWrapper : String := "gradlew"

/-- The plan for a repository. -/
def ofRepository (name root : String) (recipes : List Recipe) : Work RunError Plan := do
  let paths ← Disk.blame (.walk (Path.join root Discover.directory)) <|
    Disk.look fun tree home => .ok (Discover.files tree home root)
  let hasGradleWrapper ← Disk.ask fun tree home => tree.isFile home (Path.join root gradleWrapper)
  let files ← paths.mapM (ofFile root hasGradleWrapper recipes)
  return { name, files }

end Plan

end WorkflowRecipes
