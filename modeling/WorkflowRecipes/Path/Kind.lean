import WorkflowRecipes.Path.Glob
import WorkflowRecipes.Text.Blank

/-!
# Kinds of files

Where workflows and the update configuration live in a repository.
-/

namespace WorkflowRecipes.Path

/-- The globs of workflow files. -/
def workflowGlobs : List String := [".github/workflows/*.yml", ".github/workflows/*.yaml"]

/-- The globs of the update configuration. -/
def dependabotGlobs : List String := [".github/dependabot.yml", ".github/dependabot.yaml"]

/-- Whether a path fits one of some globs. -/
def fitsAny (globs : List String) (path : String) : Bool :=
  globs.any fun glob => Glob.fits glob path

/-- Whether a path is that of a workflow. -/
def isWorkflow (path : String) : Bool := fitsAny workflowGlobs path

/-- Whether a path is that of the update configuration. -/
def isDependabot (path : String) : Bool := fitsAny dependabotGlobs path

/-- The text of an optional glob without the blanks around it, if anything is left. -/
def givenGlob? (glob : Option String) : Option String :=
  (glob.map trimmed).filter (· != "")

/-- Whether a path is that of a workflow whose file name fits the glob, if one is given. -/
def isWorkflowNamed (path : String) (glob : Option String) : Bool :=
  isWorkflow path &&
    match givenGlob? glob with
    | none => true
    | some glob => (fileName? path).any fun name => Glob.fits glob name

/-- Whether a path fits the glob if one is given, and otherwise is that of a workflow. -/
def isTarget (path : String) (glob : Option String) : Bool :=
  match givenGlob? glob with
  | none => isWorkflow path
  | some glob => Glob.fits glob path

end WorkflowRecipes.Path
