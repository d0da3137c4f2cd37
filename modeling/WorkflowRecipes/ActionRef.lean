import WorkflowRecipes.Text.Digits
import WorkflowRecipes.Yaml.Value

/-!
# References to actions

A step names its action as `owner/repository/path@ref`. Actions of the same repository start with
`./`, container images with `docker://`; these have no owner.
-/

namespace WorkflowRecipes

/-- A reference to an action: the name before the first `@`, and the ref after it. -/
structure ActionRef where
  name : String
  version : Option String
  deriving Repr, DecidableEq

namespace ActionRef

/-- The reference that a text stands for. -/
def ofText (text : String) : ActionRef :=
  match cutAt? text '@' with
  | some (name, version) => ⟨name, some version⟩
  | none => ⟨text, none⟩

/-- An action of the same repository. -/
def isLocal (action : ActionRef) : Bool := startsWith action.name "./"

/-- A container image. -/
def isDocker (action : ActionRef) : Bool := startsWith action.name "docker://"

/-- Neither of the same repository nor a container image. -/
def isRemote (action : ActionRef) : Bool := !action.isLocal && !action.isDocker

/-- The owner of the repository. -/
def owner? (action : ActionRef) : Option String :=
  if action.isRemote then (cutAt? action.name '/').map (·.1) else none

/-- The number that the ref starts with, behind an optional `v`, if it fits in 32 bits. -/
def major? (action : ActionRef) : Option Nat :=
  action.version.bind fun version =>
    let digits := match version.toList with
      | 'v' :: rest => rest
      | all => all
    Text.naturalBelow? UInt32.size (digits.takeWhile Char.isDigit)

/-- Whether the action has this name, with any ref or none. -/
def isNamed (action : ActionRef) (name : String) : Bool := action.name == name

end ActionRef

namespace Entries

/-- The text under the key `uses` of a step. -/
def uses? (step : Entries) : Option String := step.text? "uses"

/-- The action that a step uses. -/
def action? (step : Entries) : Option ActionRef := step.uses?.map ActionRef.ofText

/-- Whether a step uses the action of this name. -/
def usesAction (step : Entries) (name : String) : Bool :=
  step.action?.any fun action => action.isNamed name

end Entries

end WorkflowRecipes
