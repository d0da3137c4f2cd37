/-!
# The file being visited

What a recipe may look at besides the document.
-/

namespace WorkflowRecipes

/-- The file that a document comes from. -/
structure Context where
  /-- The path below the root of the repository. -/
  path : String
  /-- The text of the file, for checks that need comments. -/
  text : String := ""
  /-- Whether the repository has a file `gradlew` at its root. -/
  hasGradleWrapper : Bool := false
  deriving Repr, DecidableEq

end WorkflowRecipes
