import WorkflowRecipes.Audit.Basic
import WorkflowRecipes.Amendment.Basic

/-!
# Recipes

A recipe is an amendment or an audit. Each has a name, by which configurations and reports refer to
it.
-/

namespace WorkflowRecipes

/-- A recipe with its options. -/
inductive Recipe where
  | amendment (amendment : Amendment)
  | audit (audit : Audit)
  deriving Repr, DecidableEq

/-- The name of an amendment. -/
def Amendment.name : Amendment → String
  | .adoptToTemurin => "setup-java-adopt-openjdk-to-temurin"
  | .openJ9ToSemeru => "setup-java-adopt-openj9-to-semeru"
  | .preferTemurin => "prefer-temurin-distributions"
  | .replaceDistribution _ => "replace-setup-java-distribution"
  | .raiseJava _ => "setup-java-upgrade-java-version"
  | .cacheJava => "setup-java-caching"
  | .raiseNode _ => "setup-node-upgrade-node-version"
  | .addCron _ => "add-cron-trigger"
  | .removeCron => "remove-all-cron-triggers"
  | .addManual => "add-manual-trigger"
  | .cancelEarlier _ => "auto-cancel-in-progress-workflow"
  | .changeInterval _ => "change-dependabot-schedule-interval"
  | .addCooldown _ => "add-dependabot-cooldown"
  | .replaceRunners _ => "replace-runners"
  | .changeAction _ => "change-action"
  | .changeActionVersion _ => "change-action-version"
  | .replaceSecret _ => "replace-secrets"
  | .renameKey _ => "replace-secret-keys"
  | .inheritSecrets => "prefer-secrets-inherit-workflow"
  | .dropInput _ => "remove-workflow-input-argument"
  | .dropUnusedInputs => "remove-unused-workflow-dispatch-inputs"
  | .useGradleWrapper => "use-gradle-wrapper"
  | .upgradeSlack => "upgrade-slack-notification-version2"
  | .moveToUv _ => "setup-python-to-uv"

/-- The name of an audit. -/
def Audit.name : Audit → String
  | .missingTimeout => "find-missing-timeout"
  | .unpinnedAction => "find-unpinned-actions"
  | .templateInjection => "template-injection"
  | .environmentFile => "github-env"
  | .insecureCommand => "insecure-commands"
  | .obfuscation => "obfuscation"
  | .permission => "excessive-permissions"
  | .dangerousTrigger => "dangerous-triggers"
  | .inheritedSecret => "secrets-inherit"
  | .selfHosted => "self-hosted-runner"
  | .botCondition => "bot-conditions"
  | .anonymousJob => "anonymous-jobs"
  | .unpinnedImage => "unpinned-docker-images"
  | .forbidden _ => "forbidden-uses"
  | .commitRemark => "ref-version-mismatch"
  | .cachePoisoning => "cache-poisoning"
  | .writtenPassword => "hardcoded-credentials"
  | .artifact => "artifact-security"
  | .trustedPublishing => "trusted-publishing"

namespace Recipe

/-- The name of a recipe. -/
def name : Recipe → String
  | .amendment r => r.name
  | .audit a => a.name

/-- The problems with the options of a recipe. -/
def problems : Recipe → List String
  | .amendment r => r.problems
  | .audit a => a.problems

/-- Whether a recipe is meant for the file at a path. -/
def isMeantFor (path : String) : Recipe → Bool
  | .amendment r => r.isMeantFor path
  | .audit _ => Path.isWorkflow path

/-- What a recipe makes of a document: the document after it, the edits, and the findings. -/
structure Outcome where
  doc : Value
  edits : List Edit := []
  findings : List Finding := []
  deriving Repr

/-- Let a recipe visit a document. -/
def visit (context : Context) (doc : Value) : Recipe → Outcome
  | .amendment r =>
    let changed := r.visit context doc
    { doc := changed.result, edits := changed.edits }
  | .audit a => { doc, findings := a.findings context doc }

section Fixing

variable {σ : Type} [RandomSource σ]

/-- Fix the expression of a schedule with random numbers; any other recipe stays as it is. -/
def resolve (source : σ) : Recipe → Recipe
  | .amendment (.addCron options) => .amendment (.addCron (options.resolve source).1)
  | other => other

/-- Fix the expressions of all schedules, each with the random numbers that are left. -/
def resolveAll : σ → List Recipe → List Recipe
  | _, [] => []
  | source, .amendment (.addCron options) :: rest =>
    let (fixed, left) := options.resolve source
    .amendment (.addCron fixed) :: resolveAll left rest
  | source, other :: rest => other :: resolveAll source rest

end Fixing

end Recipe

end WorkflowRecipes
