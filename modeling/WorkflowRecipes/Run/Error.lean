import WorkflowRecipes.Config.Reading
import WorkflowRecipes.FileTree.Disk
import WorkflowRecipes.Yaml.Render

/-!
# Errors of runs
-/

namespace WorkflowRecipes

/-- Why an event is not appended to a log. -/
inductive LogFault where
  | directory (fault : FileFault)
  | opening (fault : FileFault)
  | writing (fault : FileFault)
  deriving Repr, DecidableEq

/-- The wording of a fault. -/
def LogFault.message : LogFault → String
  | .directory fault => "cannot create directory: " ++ fault.message
  | .opening fault => "cannot open: " ++ fault.message
  | .writing fault => "write error: " ++ fault.message

/-- Why a run or a command fails. -/
inductive RunError where
  | read (path : String) (fault : FileFault)
  | write (path : String) (fault : WriteFault)
  | config (error : ConfigError)
  | render (path : String) (fault : RenderFault)
  /-- The configuration or the options have problems. -/
  | problems (count : Nat)
  | recipe (error : RecipeError)
  | walk (root : String) (fault : FileFault)
  | log (path : String) (fault : LogFault)
  /-- Files would be modified. -/
  | pending (count : Nat)
  /-- There are findings. -/
  | findings (count : Nat)
  deriving Repr, DecidableEq

/-- The wording of an error. -/
def RunError.message : RunError → String
  | .read path fault => "cannot read " ++ path ++ ": " ++ fault.message
  | .write path fault => "cannot write " ++ path ++ ": " ++ fault.message
  | .config error => "config parse error: " ++ error.message
  | .render path fault => "YAML serialize error in " ++ path ++ ": " ++ fault.message
  | .problems count => toString count ++ " validation error(s)"
  | .recipe (.options error) => "config parse error: " ++ error.message
  | .recipe error => error.message
  | .walk root fault =>
    "cannot walk " ++ root ++ ": IO error for operation on " ++ root ++ ": " ++ fault.message
  | .log path fault => "event log " ++ path ++ ": " ++ fault.message
  | .pending count => toString count ++ " file(s) would be rewritten"
  | .findings count => toString count ++ " finding(s) reported"

end WorkflowRecipes
