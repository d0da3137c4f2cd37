import WorkflowRecipes.Run.Error

/-!
# Loading a configuration

`Config.load` gives a configuration from a file only if it has no problems.
-/

namespace WorkflowRecipes.Config

/-- Read a configuration from a file. -/
def readFile (path : String) : Work RunError Config := do
  let text ← Disk.blame (.read path) <| Disk.readText path
  match ofText text with
  | .ok config => return config
  | .error error => throw (.config error)

/-- Read a configuration without problems from a file. -/
def load (path : String) : Work RunError Config := do
  let config ← readFile path
  if !config.problems.isEmpty then throw (.problems config.problems.length)
  return config

end WorkflowRecipes.Config
