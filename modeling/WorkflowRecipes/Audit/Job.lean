import WorkflowRecipes.Audit.Finding
import WorkflowRecipes.Text.Search

/-!
# Jobs

Jobs without a time limit or a name, and jobs on machines of one's own.
-/

namespace WorkflowRecipes

namespace MissingTimeout

/-- Whether a job, or anything in it, sets a time limit. -/
def isLimited (job : Entries) : Bool := Value.entriesHaveKeyWithin "timeout-minutes" job

/-- The jobs without a time limit. -/
def findings (doc : Value) : List Finding :=
  doc.jobs.flatMap fun (_, location, job) =>
    Finding.when (!isLimited job) location "missing: $.jobs.*.timeout-minutes"

end MissingTimeout

namespace AnonymousJob

/-- The jobs without a name; those that call a workflow need none. -/
def findings (doc : Value) : List Finding :=
  doc.jobs.flatMap fun (_, location, job) =>
    Finding.when (!job.hasKey "name" && !job.hasKey "uses") location
      "Job has no name. Add a descriptive name to make it easier to identify in workflow runs."

end AnonymousJob

namespace SelfHosted

/-- The label of machines of one's own. -/
def label : String := "self-hosted"

/-- What is said about a job on such a machine. -/
def message : String :=
  "Uses self-hosted runner which may have security implications in public repositories. Ensure " ++
  "runners are ephemeral and properly isolated."

/-- What is said about a job that may come to run on such a machine. -/
def maybeMessage : String :=
  "Expression may expand to self-hosted runner. Verify that self-hosted runners are properly " ++
  "secured."

/-- Whether a dimension of the job's matrix lists the label. -/
def isInMatrix (job : Entries) : Bool :=
  match (job.get? "strategy").bind fun strategy => strategy.get? "matrix" with
  | some (.mapping matrix) =>
    matrix.any fun (_, dimension) =>
      dimension.itemsOf.any fun item => item.text? == some label
  | _ => false

/-- The problem with the machines that a job asks for. -/
def problem? (job : Entries) : Option String :=
  match job.get? "runs-on" with
  | some (.string text) =>
    if text = label then some message
    else if holds text "$\x7b\x7b" && holds text "matrix." && isInMatrix job then some maybeMessage
    else none
  | some (.sequence labels) =>
    if labels.head?.bind Value.text? = some label then some message else none
  | _ => none

/-- The jobs on machines of one's own. -/
def findings (doc : Value) : List Finding :=
  doc.jobs.filterMap fun (_, location, job) =>
    (problem? job).map fun message => ⟨location.key "runs-on", message⟩

end SelfHosted

end WorkflowRecipes
