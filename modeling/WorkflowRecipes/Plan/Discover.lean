import WorkflowRecipes.FileTree.Resolve

/-!
# Finding files

`discover` lists the files with the endings `yml` and `yaml` at any depth below `.github`. The paths
start at the root of the repository and are in order, component by component.
-/

namespace WorkflowRecipes

namespace Discover

/-- The directory whose files are looked at. -/
def directory : String := ".github"

/-- The endings of the files that are found. -/
def endings : List String := ["yml", "yaml"]

/-- The path of an entry below the directory, if it is a file with one of the endings. -/
def path? (place : Route × FileEntry) : Option String :=
  match place.2, place.1.getLast? with
  | .file .., some name =>
    if (Path.extension? name).any endings.contains then
      some ("/".intercalate (directory :: place.1))
    else none
  | _, _ => none

/-- The paths of the files in a repository. -/
def files (tree : FileTree) (home : Route) (root : String) : List String :=
  let path := Path.join root directory
  match tree.resolve home true path with
  | .ok route =>
    if tree.isDirectory home path then (tree.below route).filterMap path? else []
  | .error _ => []

end Discover

end WorkflowRecipes
