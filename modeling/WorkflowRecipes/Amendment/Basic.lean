import WorkflowRecipes.Amendment.Action
import WorkflowRecipes.Amendment.Command
import WorkflowRecipes.Amendment.Dependabot
import WorkflowRecipes.Amendment.Input
import WorkflowRecipes.Amendment.Java
import WorkflowRecipes.Amendment.Job
import WorkflowRecipes.Amendment.Secret
import WorkflowRecipes.Amendment.Trigger

/-!
# Amendments

The recipes that change documents, each with its options.
-/

namespace WorkflowRecipes

/-- A recipe that changes documents. -/
inductive Amendment where
  | adoptToTemurin
  | openJ9ToSemeru
  | preferTemurin
  | replaceDistribution (options : ReplaceDistribution)
  | raiseJava (least : Nat)
  | cacheJava
  | raiseNode (least : Nat)
  | addCron (options : AddCron)
  | removeCron
  | addManual
  | cancelEarlier (options : CancelEarlier)
  | changeInterval (options : ChangeInterval)
  | addCooldown (options : AddCooldown)
  | replaceRunners (options : ReplaceRunners)
  | changeAction (options : ChangeAction)
  | changeActionVersion (options : ChangeActionVersion)
  | replaceSecret (options : ReplaceSecret)
  | renameKey (options : RenameKey)
  | inheritSecrets
  | dropInput (options : DropInput)
  | dropUnusedInputs
  | useGradleWrapper
  | upgradeSlack
  | moveToUv (options : MoveToUv)
  deriving Repr, DecidableEq

namespace Amendment

/-- The problem with a least version. -/
def leastProblems (field : String) (least : Nat) : List String :=
  if least = 0 then [field ++ " must be positive"] else []

/-- The problems with the options of an amendment. -/
def problems : Amendment → List String
  | .replaceDistribution options => options.problems
  | .raiseJava least => leastProblems "minimum-java-major-version" least
  | .raiseNode least => leastProblems "minimum-node-major-version" least
  | .addCron options => options.problems
  | .cancelEarlier options => options.problems
  | .changeInterval options => options.problems
  | .addCooldown options => options.problems
  | .replaceRunners options => options.problems
  | .changeAction options => options.problems
  | .changeActionVersion options => options.problems
  | .replaceSecret options => options.problems
  | .renameKey options => options.problems
  | .dropInput options => options.problems
  | .moveToUv options => options.problems
  | _ => []

/-- Whether an amendment is meant for the file at a path. -/
def isMeantFor (path : String) : Amendment → Bool
  | .addCron options => options.isTarget path
  | .changeInterval _ | .addCooldown _ => Path.isDependabot path
  | .replaceSecret options => Path.isTarget path options.fileGlob
  | .renameKey options => Path.isTarget path options.fileGlob
  | _ => Path.isWorkflow path

/-- Change a document. -/
def visit (context : Context) (doc : Value) : Amendment → Editing Value
  | .adoptToTemurin => Distribution.adoptToTemurin doc
  | .openJ9ToSemeru => Distribution.openJ9ToSemeru doc
  | .preferTemurin => Distribution.preferTemurin doc
  | .replaceDistribution options => options.visit doc
  | .raiseJava least => ToolVersion.raiseJava least doc
  | .cacheJava => JavaCache.visit doc
  | .raiseNode least => ToolVersion.raiseNode least doc
  | .addCron options => options.visit doc
  | .removeCron => Trigger.removeCron doc
  | .addManual => Trigger.addManual doc
  | .cancelEarlier options => options.visit doc
  | .changeInterval options => options.visit doc
  | .addCooldown options => options.visit doc
  | .replaceRunners options => options.visit doc
  | .changeAction options => options.visit doc
  | .changeActionVersion options => options.visit doc
  | .replaceSecret options => options.visit doc
  | .renameKey options => options.visit doc
  | .inheritSecrets => InheritSecrets.visit doc
  | .dropInput options => options.visit doc
  | .dropUnusedInputs => UnusedInput.visit doc
  | .useGradleWrapper => GradleWrapper.visit context doc
  | .upgradeSlack => Slack.visit doc
  | .moveToUv options => options.visit doc

end Amendment

end WorkflowRecipes
