import WorkflowRecipes.CommandLine.Reading
import WorkflowRecipes.Config.Loading
import WorkflowRecipes.Plan.Listing
import WorkflowRecipes.Recipe.Reading
import WorkflowRecipes.Run.Basic

/-!
# Performing a command

`Command.perform` carries out a command on a disk. A command that fails shows nothing but its
complaints and the error.
-/

namespace WorkflowRecipes

/-- Why a command fails, with what is to be told before. -/
structure Failure where
  complaints : List String := []
  error : RunError
  deriving Repr, DecidableEq

/-- What a command shows. -/
inductive Output where
  | text (text : String)
  /-- What a run did. -/
  | report (report : RunReport)
  deriving Repr, DecidableEq

/-- The text about what a run did in an elapsed time. -/
def RunReport.text (elapsed : String) (report : RunReport) : String :=
  let modified := report.plan.files.filter fun file => file.action = .modify
  String.join (modified.map fun file =>
    "  rewrote " ++ file.path ++ " (" ++ toString file.edits.length ++ " edit(s))\n") ++
  String.join (report.plan.findings.map fun (path, finding) =>
    "  FOUND " ++ path ++ " " ++ FilePlan.findingText finding) ++
  "Apply complete: " ++ toString report.modified ++ " rewritten, " ++
    toString report.plan.kept ++ " unchanged (" ++ elapsed ++ "s, run " ++ report.runName ++ ").\n"

/-- The text of what a command shows after an elapsed time. -/
def Output.shown (elapsed : String) : Output → String
  | .text shown => shown
  | .report done => done.text elapsed

/-- What is told about a problem. -/
def complaint (problem : String) : String := "  ERROR: " ++ problem

/-- A configuration to start from. -/
def starterConfig : String :=
  "version: \"1.0\"\n" ++
  "name: modernize-ci\n" ++
  "description: \"Managed by ghrewrite\"\n" ++
  "\n" ++
  "policy:\n" ++
  "  fail_on_findings: false\n" ++
  "  event_log: .ghrewrite/events.jsonl\n" ++
  "\n" ++
  "recipes:\n" ++
  "  - recipe: setup-java-adopt-openjdk-to-temurin\n" ++
  "  - recipe: setup-java-upgrade-java-version\n" ++
  "    minimum-java-major-version: 21\n" ++
  "  - recipe: find-missing-timeout\n"

/-- The text about a kind of recipe. -/
def RecipeKind.description (kind : RecipeKind) : String :=
  kind.name ++ "\n  " ++ kind.title ++ "\n  " ++ kind.summary ++ "\n" ++
    String.join (kind.help.map fun option => "    - " ++ option ++ "\n") ++ "\n"

namespace Command

/-- Write a configuration to start from into a directory. -/
def writeStarter (path : String) : Work RunError Output := do
  let file := Path.join path CommandForm.fileName
  if ← Disk.ask fun tree home => tree.holds home file then throw (.write file .present)
  Disk.blame (fun fault => .write path (.file fault)) <|
    Disk.change fun tree home => tree.makeAllDirectories home path
  Disk.blame (fun fault => .write file (.file fault)) <|
    Disk.change fun tree home => tree.write home file starterConfig.toUTF8
  return .text ("Initialized ghrewrite at " ++ path ++ "\n  Created: " ++ file ++ "\n")

/-- Tell that there are problems, or go on. -/
def unlessProblems {α : Type} (problems : List String) (work : Work Failure α) : Work Failure α :=
  if problems.isEmpty then work
  else throw { complaints := problems.map complaint, error := .problems problems.length }

/-- Say whether a configuration has problems. -/
def validateFile (file : String) : Work Failure Output := do
  let config ← Disk.blame (Failure.mk []) (Config.readFile file)
  unlessProblems config.problems <|
    return .text ("OK: " ++ config.name ++ " (" ++ toString config.recipes.length ++ " recipes)\n")

/-- Do a run, and show the plan if it does not write. -/
def report (setting : Setting) (run : Run) : Work RunError Output := do
  let report ← run.apply setting
  if run.isDry then
    return .text (report.plan.listing false ++ "Dry run: no files written.\n")
  else if run.isCheck then return .text (report.plan.listing false)
  else return .report report

/-- Run one recipe with the options of texts. -/
def runRecipe (setting : Setting) (draws : Draws) (name root : String) (options : List String)
    (isDry : Bool) : Work Failure Output := do
  match Recipe.ofTexts name options with
  | .error error => throw { error := .recipe error }
  | .ok recipe =>
    let recipes := Recipe.resolveAll draws [recipe]
    unlessProblems recipe.problems <|
      Disk.blame (Failure.mk []) (report setting { name, recipes, root, isDry })

/-- The paths that a command may look at, apart from the log of its configuration. -/
def paths : Command → List String
  | .init path => [Path.join path CommandForm.fileName]
  | .validate file => [file]
  | .plan file root _ | .apply file root _ _ =>
    [file, Path.join root Discover.directory, Path.join root Plan.gradleWrapper]
  | .run _ root _ _ => [Path.join root Discover.directory, Path.join root Plan.gradleWrapper]
  | .recipes | .completions _ => []

/-- Carry out a command, with random numbers for schedules. The scripts that complete command lines
are not told here. -/
def perform (setting : Setting) (draws : Draws) : Command → Work Failure Output
  | .init path => Disk.blame (Failure.mk []) (writeStarter path)
  | .validate file => validateFile file
  | .recipes => return .text (String.join (RecipeKind.catalog.map (·.description)))
  | .plan file root withPatches => Disk.blame (Failure.mk []) do
    let config ← Config.load file
    let plan ← Plan.ofRepository config.name root (Recipe.resolveAll draws config.recipes)
    return .text (plan.listing withPatches)
  | .apply file root isDry isCheck => Disk.blame (Failure.mk []) do
    let config ← Config.load file
    let recipes := Recipe.resolveAll draws config.recipes
    report setting { Run.ofConfig config root with recipes, isDry, isCheck }
  | .run recipe root options isDry => runRecipe setting draws recipe root options isDry
  | .completions _ => return .text ""

end Command

end WorkflowRecipes
