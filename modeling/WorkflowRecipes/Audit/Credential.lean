import WorkflowRecipes.Audit.Finding
import WorkflowRecipes.ActionRef
import WorkflowRecipes.Pattern.Reader

/-!
# Credentials

Passwords in the text of a workflow, and credentials that end up in the files it uploads.
-/

namespace WorkflowRecipes

namespace WrittenPassword

open Pattern

/-- An expression on one line. -/
def expression : Pattern := text "$\x7b\x7b" ++ many (noneOf "\n") ++ text "\x7d\x7d"

/-- The passwords that are no expressions. -/
def findings (doc : Value) : List Finding :=
  Finding.underKey doc "password" fun value =>
    value.scalarText?.bind fun password =>
      if expression.isIn password then none
      else
        some ("Container registry password '" ++ password ++ "' appears to be hardcoded. Use " ++
          "secrets (e.g., $\x7b\x7b secrets.REGISTRY_PASSWORD \x7d\x7d) instead.")

end WrittenPassword

namespace Artifact

/-- The parts of paths that lead to credentials. -/
def sensitivePaths : List String :=
  [".ssh", ".aws", ".docker", ".kube", "~/.config", ".gitconfig", ".npmrc", ".pypirc",
    "/etc/passwd", "/etc/shadow", "/etc/hosts", "/var/log", "/tmp", "/root", ".bash_history",
    ".zsh_history", "/home"]

/-- The parts of names that speak of credentials, in any case. -/
def sensitiveNames : List String :=
  ["config.json", "credentials", "token", "secret", "key", "password", "passwd"]

/-- Whether a path may take credentials along. -/
def isSensitive (path : String) : Bool :=
  sensitivePaths.any (holds path) || sensitiveNames.any (holds (lowercase path)) ||
    [".", "~", "/"].contains (trimmed path)

/-- The action that uploads files. -/
def uploader : String := "actions/upload-artifact"

/-- Whether a workflow uploads files. -/
def uploads (doc : Value) : Bool :=
  doc.entriesWithin.any fun (_, key, value) =>
    key == "uses" && value.text?.any fun uses => startsWith uses uploader

/-- The text of an input of a step. -/
def input? (step : Entries) (key : String) : Option String :=
  ((step.get? "with").bind fun inputs => inputs.get? key).bind Value.scalarText?

/-- What is said about a checkout with this setting for keeping the credential. -/
def checkoutProblem? : Option String → Option String
  | none =>
    some ("Checkout step does not disable credential persistence, which may expose credentials " ++
      "in artifacts.")
  | some "true" =>
    some ("Checkout step explicitly enables credential persistence, which may expose " ++
      "credentials in artifacts.")
  | some _ => none

/-- The problem with a step; `uploads` tells whether the workflow uploads files. -/
def problem? (uploads : Bool) (step : Entries) : Option String :=
  step.uses?.bind fun uses =>
    if startsWith uses "actions/checkout" && uploads then
      checkoutProblem? (input? step "persist-credentials")
    else if startsWith uses uploader && (input? step "path").any isSensitive then
      some ("Uploading potentially sensitive paths that may contain credentials or " ++
        "configuration files.")
    else none

/-- The steps that keep or upload credentials. -/
def findings (doc : Value) : List Finding :=
  let uploaded := uploads doc
  doc.steps.filterMap fun (location, step) =>
    (problem? uploaded step).map fun message => ⟨location.key "uses", message⟩

end Artifact

end WorkflowRecipes
