import WorkflowRecipes.Recipe.Basic
import WorkflowRecipes.Yaml.Document
import WorkflowRecipes.Yaml.Render

/-!
# Plans for files

`FilePlan.ofText` says what recipes make of the text of one file. The recipes visit the documents of
the file in turn, and the file is modified only if a document is no longer the same.
-/

namespace WorkflowRecipes

/-- A note with the name of the recipe that made it. -/
structure Signed (α : Type) where
  recipe : String
  note : α
  deriving Repr, DecidableEq

/-- Sign the notes of a recipe. -/
def signed {α : Type} (recipe : String) (notes : List α) : List (Signed α) :=
  notes.map fun note => ⟨recipe, note⟩

/-- Documents with what recipes noted on them. -/
structure Visited where
  docs : List Value
  edits : List (Signed Edit) := []
  findings : List (Signed Finding) := []
  deriving Repr

namespace Visited

/-- Let a recipe visit each document. -/
def byOne (context : Context) (recipe : Recipe) (docs : List Value) : Visited :=
  let outcomes := docs.map fun doc => recipe.visit context doc
  { docs := outcomes.map (·.doc)
    edits := outcomes.flatMap fun outcome => signed recipe.name outcome.edits
    findings := outcomes.flatMap fun outcome => signed recipe.name outcome.findings }

/-- Let recipes visit the documents in turn. -/
def byAll (context : Context) : List Recipe → List Value → Visited
  | [], docs => { docs }
  | recipe :: rest, docs =>
    let first := byOne context recipe docs
    let later := byAll context rest first.docs
    { docs := later.docs
      edits := first.edits ++ later.edits
      findings := first.findings ++ later.findings }

end Visited

/-- What is to happen to a file. -/
inductive PlanAction where
  | modify
  | keep
  /-- The text has no meaning, and the file is left alone. -/
  | skip
  deriving Repr, DecidableEq

/-- The word for an action. -/
def PlanAction.text : PlanAction → String
  | .modify => "MODIFY"
  | .keep => "NO-OP"
  | .skip => "SKIP"

/-- The plan for one file. -/
structure FilePlan where
  path : String
  action : PlanAction := .keep
  edits : List (Signed Edit) := []
  findings : List (Signed Finding) := []
  /-- The text of the file, or nothing if no recipe is meant for it. -/
  before : String := ""
  /-- The new text of a file that is modified. -/
  after : Option String := none
  deriving Repr, DecidableEq

namespace FilePlan

/-- The plan for a file with these documents, once the recipes that are meant for it are chosen. -/
def ofDocuments (context : Context) (recipes : List Recipe) (docs : List Value) :
    Except RenderFault FilePlan :=
  let visited := Visited.byAll context recipes docs
  let plan : FilePlan :=
    { path := context.path, before := context.text
      edits := visited.edits, findings := visited.findings }
  if Value.sameItems visited.docs docs then .ok plan
  else
    match Yaml.render visited.docs with
    | .ok text => .ok { plan with action := .modify, after := some text }
    | .error fault => .error fault

/-- The plan for the file of a context. -/
def ofText (context : Context) (recipes : List Recipe) : Except RenderFault FilePlan :=
  let meant := recipes.filter fun recipe => recipe.isMeantFor context.path
  if meant.isEmpty then .ok { path := context.path, before := context.text }
  else
    match Yaml.documents? context.text with
    | none => .ok { path := context.path, before := context.text, action := .skip }
    | some docs => ofDocuments context meant docs

end FilePlan

end WorkflowRecipes
