import WorkflowRecipes.Audit.Credential
import WorkflowRecipes.Audit.Event
import WorkflowRecipes.Audit.Job
import WorkflowRecipes.Audit.Permission
import WorkflowRecipes.Audit.Publishing
import WorkflowRecipes.Audit.Reference
import WorkflowRecipes.Audit.Script
import WorkflowRecipes.Recipe.Context

/-!
# Audits

The recipes that only report.
-/

namespace WorkflowRecipes

/-- A recipe that only reports. -/
inductive Audit where
  | missingTimeout
  | unpinnedAction
  | templateInjection
  | environmentFile
  | insecureCommand
  | obfuscation
  | permission
  | dangerousTrigger
  | inheritedSecret
  | selfHosted
  | botCondition
  | anonymousJob
  | unpinnedImage
  | forbidden (options : Forbidden)
  | commitRemark
  | cachePoisoning
  | writtenPassword
  | artifact
  | trustedPublishing
  deriving Repr, DecidableEq

namespace Audit

/-- The problems with the options of an audit. -/
def problems : Audit → List String
  | .forbidden options => options.problems
  | _ => []

/-- What an audit reports about a document. -/
def findings (context : Context) (doc : Value) : Audit → List Finding
  | .missingTimeout => MissingTimeout.findings doc
  | .unpinnedAction => Unpinned.findings doc
  | .templateInjection => Taint.findings doc
  | .environmentFile => EnvironmentFile.findings doc
  | .insecureCommand => InsecureCommand.findings doc
  | .obfuscation => Obfuscation.findings doc
  | .permission => Permission.findings doc
  | .dangerousTrigger => Event.findings doc
  | .inheritedSecret => InheritedSecret.findings doc
  | .selfHosted => SelfHosted.findings doc
  | .botCondition => BotCondition.findings doc
  | .anonymousJob => AnonymousJob.findings doc
  | .unpinnedImage => Image.findings doc
  | .forbidden options => options.findings doc
  | .commitRemark => CommitRemark.findings context.text doc
  | .cachePoisoning => CachePoisoning.findings doc
  | .writtenPassword => WrittenPassword.findings doc
  | .artifact => Artifact.findings doc
  | .trustedPublishing => TrustedPublishing.findings doc

end Audit

end WorkflowRecipes
