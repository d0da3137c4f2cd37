import WorkflowRecipes.Recipe.Basic

/-!
# Configurations

A configuration lists the recipes to be run, in order, and says how a run is to behave.
-/

namespace WorkflowRecipes

/-- How a run behaves. -/
structure Policy where
  /-- Whether findings make a run fail. -/
  failsOnFindings : Bool := false
  /-- The file below the root to which events are appended. -/
  eventLog : Option String := none
  deriving Repr, DecidableEq

/-- A configuration. -/
structure Config where
  version : String
  name : String
  description : Option String := none
  policy : Policy := {}
  recipes : List Recipe := []
  deriving Repr, DecidableEq

namespace Config

/-- The version of configurations. -/
def currentVersion : String := "1.0"

/-- The problems with the options of recipes, `position` of which stand before. -/
def recipeProblems (position : Nat) : List Recipe → List String
  | [] => []
  | recipe :: rest =>
    let place := "recipes[" ++ toString position ++ "] (" ++ recipe.name ++ "): "
    recipe.problems.map (place ++ ·) ++ recipeProblems (position + 1) rest

/-- The problems with a configuration. -/
def problems (config : Config) : List String :=
  (if config.version = currentVersion then []
    else ["version must be \"" ++ currentVersion ++ "\", got \"" ++ config.version ++ "\""]) ++
  (if isBlankText config.name then ["name must not be empty"] else []) ++
  (if config.recipes.isEmpty then ["recipes must list at least one recipe"] else []) ++
  recipeProblems 0 config.recipes

end Config

end WorkflowRecipes
