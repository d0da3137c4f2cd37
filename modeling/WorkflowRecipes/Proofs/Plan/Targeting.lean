import Mathlib.Data.List.TakeWhile
import WorkflowRecipes.Plan.File
import WorkflowRecipes.Proofs.Path.Kinds

/-!
# Which files are planned for

Two recipes can be given a glob for the files they are meant for. All others, and these two without
a glob, are meant for workflows or for the update configuration.

Results:
1. `isMeantFor_elsewhere`: such a recipe is meant for no other file.
2. `kinds_exact`: what both kinds of files are, and that nothing is planned elsewhere.
-/

namespace WorkflowRecipes

theorem trimmed_of_blank {text : String} (h : isBlankText text = true) : trimmed text = "" := by
  have hstart : Text.trimStart text.toList = [] :=
    List.dropWhile_eq_nil_iff.mpr fun c hc => List.all_eq_true.mp h c hc
  rw [trimmed, Text.trim, hstart]
  rfl

/-- A blank glob is no glob. -/
theorem Path.givenGlob?_of_blank {glob : Option String} (h : glob.all isBlankText = true) :
    Path.givenGlob? glob = none := by
  cases glob with
  | none => rfl
  | some text => simp [Path.givenGlob?, trimmed_of_blank (show isBlankText text = true from h)]

/-- The glob that a recipe may be given in the place of the workflows. -/
def Recipe.fileGlob? : Recipe → Option String
  | .amendment (.replaceSecret options) => options.fileGlob
  | .amendment (.renameKey options) => options.fileGlob
  | _ => none

section Elsewhere

variable {path : String} (hworkflow : Path.isWorkflow path = false)
  (hdependabot : Path.isDependabot path = false)

include hworkflow in
theorem isTarget_elsewhere {glob : Option String} (h : glob.all isBlankText = true) :
    Path.isTarget path glob = false := by
  unfold Path.isTarget
  rw [Path.givenGlob?_of_blank h]
  exact hworkflow

include hworkflow hdependabot in
theorem Amendment.isMeantFor_elsewhere (amendment : Amendment)
    (h : (Recipe.amendment amendment).fileGlob?.all isBlankText = true) :
    amendment.isMeantFor path = false := by
  cases amendment with
  | replaceSecret options => exact isTarget_elsewhere hworkflow h
  | renameKey options => exact isTarget_elsewhere hworkflow h
  | changeInterval options => exact hdependabot
  | addCooldown options => exact hdependabot
  | addCron options =>
    -- The glob of this one chooses among the workflows.
    show Path.isWorkflowNamed path options.fileGlob = false
    rw [Path.isWorkflowNamed, hworkflow, Bool.false_and]
  | _ => exact hworkflow

include hworkflow hdependabot in
/-- A recipe without a glob is meant for no file that is neither a workflow nor the update
configuration. -/
theorem Recipe.isMeantFor_elsewhere (recipe : Recipe)
    (h : recipe.fileGlob?.all isBlankText = true) : recipe.isMeantFor path = false := by
  cases recipe with
  | amendment amendment => exact amendment.isMeantFor_elsewhere hworkflow hdependabot h
  | audit audit => exact hworkflow

end Elsewhere

namespace FilePlan

/-- Where no recipe is meant for a file, its text is not even read. -/
theorem ofText_of_none_meant {context : Context} {recipes : List Recipe}
    (h : ∀ recipe ∈ recipes, recipe.isMeantFor context.path = false) :
    ofText context recipes = .ok { path := context.path, before := context.text } := by
  have hmeant : recipes.filter (fun recipe => recipe.isMeantFor context.path) = [] := by
    rw [List.filter_eq_nil_iff]
    intro recipe hmem
    rw [h recipe hmem]
    exact Bool.false_ne_true
  unfold ofText
  rw [hmeant]
  rfl

/-- The workflows are the files of one directory with either of two endings, the update
configuration is one of two files, and no path is both. For any other file, recipes without a glob
of their own plan nothing, whatever its text is. -/
theorem kinds_exact (path : String) :
    (Path.isWorkflow path = true ↔
      ∃ stem, Path.components path = [".github", "workflows", stem ++ ".yml"] ∨
        Path.components path = [".github", "workflows", stem ++ ".yaml"]) ∧
    (Path.isDependabot path = true ↔
      Path.components path = [".github", "dependabot.yml"] ∨
        Path.components path = [".github", "dependabot.yaml"]) ∧
    ¬ (Path.isWorkflow path = true ∧ Path.isDependabot path = true) ∧
    (Path.isWorkflow path = false → Path.isDependabot path = false →
      ∀ recipes : List Recipe, (∀ recipe ∈ recipes, recipe.fileGlob?.all isBlankText = true) →
        ∀ (text : String) (hasGradleWrapper : Bool), ∃ plan,
          ofText { path, text, hasGradleWrapper } recipes = .ok plan ∧ plan.action = .keep ∧
            plan.edits = [] ∧ plan.findings = [] ∧ plan.after = none) := by
  refine ⟨Path.isWorkflow_iff path, Path.isDependabot_iff path, ?_, ?_⟩
  · rintro ⟨hworkflow, hdependabot⟩
    rw [Path.not_isDependabot_of_isWorkflow hworkflow] at hdependabot
    cases hdependabot
  · intro hworkflow hdependabot recipes hrecipes text hasGradleWrapper
    refine ⟨_, ofText_of_none_meant ?_, rfl, rfl, rfl, rfl⟩
    intro recipe hmem
    exact recipe.isMeantFor_elsewhere hworkflow hdependabot (hrecipes recipe hmem)

/-- A workflow with a deeper path is none, and a recipe with a blank glob leaves it alone. -/
theorem kinds_exact_deeper :
    Path.isWorkflow ".github//workflows/./ci.yml" = true ∧
    Path.isWorkflow ".github/workflows/old/ci.yml" = false ∧
    ∃ plan, ofText { path := ".github/workflows/old/ci.yml", text := "jobs: [" }
        [.amendment (.replaceSecret ⟨"A", "B", some " "⟩), .audit .missingTimeout] = .ok plan ∧
      plan.action = .keep := by
  have hworkflow : Path.isWorkflow ".github/workflows/old/ci.yml" = false := by decide
  have hdependabot : Path.isDependabot ".github/workflows/old/ci.yml" = false := by decide
  refine ⟨?_, hworkflow, ?_⟩
  · have hcomponents : Path.components ".github//workflows/./ci.yml" =
        [".github", "workflows", "ci" ++ ".yml"] := by decide
    exact (kinds_exact ".github//workflows/./ci.yml").1.mpr ⟨"ci", .inl hcomponents⟩
  · obtain ⟨plan, hplan, haction, -⟩ := (kinds_exact ".github/workflows/old/ci.yml").2.2.2
      hworkflow hdependabot
      [.amendment (.replaceSecret ⟨"A", "B", some " "⟩), .audit .missingTimeout] (by decide)
      "jobs: [" false
    exact ⟨plan, hplan, haction⟩

end FilePlan

end WorkflowRecipes
