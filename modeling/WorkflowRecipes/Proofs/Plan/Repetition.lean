import WorkflowRecipes.Plan.File
import WorkflowRecipes.Proofs.Amendment.SettledKeys
import WorkflowRecipes.Proofs.Amendment.SettledSteps
import WorkflowRecipes.Proofs.Document.Equality

/-!
# Planning a second time

A recipe that settles has nothing to do on the text that it made. All amendments settle but two: a
secret can be replaced by one whose expression holds the old one again, and an input can become
unused when another one is dropped.

Results:
1. `FilePlan.ofText_of_documents`: the plan for a text that can be read.
2. `Amendment.settles_visit`: all amendments that settle.
3. `Amendment.visit_twice`: a second visit changes nothing, and a second plan keeps the file.
-/

namespace WorkflowRecipes

/-- The recipes that are meant for a file. -/
def Context.meant (context : Context) (recipes : List Recipe) : List Recipe :=
  recipes.filter fun recipe => recipe.isMeantFor context.path

theorem Context.meant_cons_of_meant {context : Context} {recipe : Recipe}
    (h : recipe.isMeantFor context.path = true) (rest : List Recipe) :
    context.meant (recipe :: rest) = recipe :: context.meant rest :=
  List.filter_cons_of_pos h

theorem Context.meant_cons_of_not_meant {context : Context} {recipe : Recipe}
    (h : recipe.isMeantFor context.path = false) (rest : List Recipe) :
    context.meant (recipe :: rest) = context.meant rest :=
  List.filter_cons_of_neg (by rw [h]; exact Bool.false_ne_true)

namespace FilePlan

variable {context : Context} {recipes : List Recipe} {docs : List Value} {plan : FilePlan}

/-- The plan for a text that can be read. -/
theorem ofText_of_documents (h : Yaml.documents? context.text = some docs) :
    ofText context recipes = ofDocuments context (context.meant recipes) docs := by
  unfold ofText Context.meant
  dsimp only
  split
  · next hempty =>
    rw [List.isEmpty_iff.mp hempty, ofDocuments, Visited.byAll, Value.sameItems_refl]
    rfl
  · rw [h]

/-- A text that cannot be read is skipped, if a recipe is meant for it. -/
theorem ofText_of_not_documents (h : Yaml.documents? context.text = none) :
    ofText context recipes = .ok
      { path := context.path, before := context.text
        action := if (context.meant recipes).isEmpty then .keep else .skip } := by
  unfold ofText Context.meant
  dsimp only
  split
  · rfl
  · rw [h]

/-- A plan for documents tells what was noted on them, and is to modify the file exactly if they are
not the same afterwards. -/
theorem ofDocuments_cases (h : ofDocuments context recipes docs = .ok plan) :
    plan.edits = (Visited.byAll context recipes docs).edits ∧
      plan.findings = (Visited.byAll context recipes docs).findings ∧
        (plan.action = .modify ↔
          Value.sameItems (Visited.byAll context recipes docs).docs docs = false) := by
  unfold ofDocuments at h
  dsimp only at h
  split at h
  · next hsame =>
    cases h
    exact ⟨rfl, rfl, by simp [hsame]⟩
  next hchanged =>
  split at h
  · cases h
    exact ⟨rfl, rfl, by simp [hchanged]⟩
  · cases h

/-- Documents that are the same afterwards are kept. -/
theorem ofDocuments_of_same
    (h : Value.sameItems (Visited.byAll context recipes docs).docs docs = true) :
    ∃ plan, ofDocuments context recipes docs = .ok plan ∧ plan.action = .keep ∧
      plan.after = none := by
  unfold ofDocuments
  dsimp only
  rw [if_pos h]
  exact ⟨_, rfl, rfl, rfl⟩

end FilePlan

namespace Amendment

/-- The names of the amendments that have no effect a second time. -/
def settling : List String :=
  ["setup-java-adopt-openjdk-to-temurin", "setup-java-adopt-openj9-to-semeru",
    "prefer-temurin-distributions", "replace-setup-java-distribution",
    "setup-java-upgrade-java-version", "setup-java-caching", "setup-node-upgrade-node-version",
    "add-cron-trigger", "remove-all-cron-triggers", "add-manual-trigger",
    "auto-cancel-in-progress-workflow", "change-dependabot-schedule-interval",
    "add-dependabot-cooldown", "replace-runners", "change-action", "change-action-version",
    "replace-secret-keys", "prefer-secrets-inherit-workflow", "remove-workflow-input-argument",
    "use-gradle-wrapper", "upgrade-slack-notification-version2", "setup-python-to-uv"]

variable {amendment : Amendment}

theorem settles_visit (h : amendment.name ∈ settling) (context : Context) :
    Editing.Settles fun doc => amendment.visit context doc := by
  cases amendment with
  | adoptToTemurin => exact Distribution.settles_replace _ _
  | openJ9ToSemeru => exact Distribution.settles_replace _ _
  | preferTemurin => exact Distribution.settles_replace _ _
  | replaceDistribution options => exact Distribution.settles_replace _ _
  | raiseJava least => exact ToolVersion.settles_raiseAll _ _ least
  | cacheJava => exact JavaCache.settles_visit
  | raiseNode least => exact ToolVersion.settles_raiseAll _ _ least
  | addCron options => exact Trigger.settles_add _ _
  | removeCron => exact Trigger.settles_removeCron
  | addManual => exact Trigger.settles_add _ _
  | cancelEarlier options => exact options.settles_visit
  | changeInterval options => exact options.settles_visit
  | addCooldown options => exact options.settles_visit
  | replaceRunners options => exact options.settles_visit
  | changeAction options => exact Retarget.settles_all _ _
  | changeActionVersion options => exact Retarget.settles_all _ _
  | replaceSecret options => exact absurd h (show "replace-secrets" ∉ settling by decide)
  | renameKey options => exact RenameKey.settles_visit options
  | inheritSecrets => exact InheritSecrets.settles_visit
  | dropInput options => exact DropInput.settles_visit options
  | dropUnusedInputs => exact absurd h (by decide)
  | useGradleWrapper => exact GradleWrapper.settles_visit context
  | upgradeSlack => exact Slack.settles_visit
  | moveToUv options => exact options.settles_visit

/-- What an amendment makes of a document does not depend on the text of the file. -/
theorem visit_of_text (amendment : Amendment) (context : Context) (text : String) (doc : Value) :
    amendment.visit { context with text } doc = amendment.visit context doc := by
  cases amendment <;> rfl

/-- One amendment by itself, on all documents. -/
theorem docs_byAll (amendment : Amendment) (context : Context) (docs : List Value) :
    (Visited.byAll context [.amendment amendment] docs).docs =
      docs.map fun doc => (amendment.visit context doc).result := by
  rw [Visited.byAll, Visited.byAll, Visited.byOne, List.map_map]
  rfl

/-- An amendment that settles leaves every document alone that it has visited. If its text is read
back as the documents that were written, then a second plan keeps the file as it is. -/
theorem visit_twice (h : amendment.name ∈ settling) (context : Context) :
    (∀ (text : String) (doc : Value),
      (amendment.visit { context with text } (amendment.visit context doc).result).result =
        (amendment.visit context doc).result) ∧
    ∀ (docs : List Value) (plan : FilePlan) (text : String),
      Yaml.documents? context.text = some docs →
      FilePlan.ofText context [.amendment amendment] = .ok plan → plan.after = some text →
      Yaml.documents? text = some (Visited.byAll context [.amendment amendment] docs).docs →
        ∃ again, FilePlan.ofText { context with text } [.amendment amendment] = .ok again ∧
          again.action = .keep ∧ again.after = none := by
  have hvisit : ∀ (text : String) (doc : Value),
      (amendment.visit { context with text } (amendment.visit context doc).result).result =
        (amendment.visit context doc).result := by
    intro text doc
    rw [visit_of_text]
    exact settles_visit h context doc
  refine ⟨hvisit, fun docs plan text _ _ _ hback => ?_⟩
  rw [@FilePlan.ofText_of_documents { context with text } _ _ hback]
  refine FilePlan.ofDocuments_of_same ?_
  cases hmeant : (Recipe.amendment amendment).isMeantFor context.path with
  | true =>
    have hagain : (docs.map fun doc => (amendment.visit context doc).result).map
        (fun doc => (amendment.visit { context with text } doc).result) =
          docs.map fun doc => (amendment.visit context doc).result := by
      rw [List.map_map]
      exact List.map_congr_left fun doc _ => hvisit text doc
    rw [@Context.meant_cons_of_meant { context with text } _ hmeant, Context.meant, List.filter_nil,
      docs_byAll, docs_byAll, hagain]
    exact Value.sameItems_refl _
  | false =>
    rw [@Context.meant_cons_of_not_meant { context with text } _ hmeant, Context.meant,
      List.filter_nil]
    exact Value.sameItems_refl _

/-- A workflow with two documents, the first of which cannot be started by hand yet. -/
def sampleContext : Context where
  path := ".github/workflows/ci.yml"
  text := "on:\n  push:\njobs: \x7b\x7d\n---\non: workflow_dispatch\n"

/-- What is written once the first document can be started by hand. -/
def sampleAfter : String :=
  "on:\n  push: null\n  workflow_dispatch: null\njobs: \x7b\x7d\n---\non: workflow_dispatch\n"

/-- The documents of the workflow. -/
def sampleDocs : List Value :=
  [.mapping [(.string "on", .mapping [(.string "push", .null)]), (.string "jobs", .mapping [])],
    .mapping [(.string "on", .string "workflow_dispatch")]]

/-- The workflow is modified by the first plan and kept by the second one. -/
theorem visit_twice_sample :
    ∃ plan again : FilePlan,
      FilePlan.ofText sampleContext [.amendment addManual] = .ok plan ∧ plan.action = .modify ∧
      FilePlan.ofText { sampleContext with text := sampleAfter } [.amendment addManual] =
        .ok again ∧ again.action = .keep ∧ again.after = none := by
  have hdocs : Yaml.documents? sampleContext.text = some sampleDocs := by decide +kernel
  have hplan : (FilePlan.ofText sampleContext [.amendment addManual]).toOption.map
      (fun plan => (plan.action, plan.after)) = some (.modify, some sampleAfter) := by
    decide +kernel
  have hback : Yaml.documents? sampleAfter =
      some (Visited.byAll sampleContext [.amendment addManual] sampleDocs).docs := by
    decide +kernel
  cases hfirst : FilePlan.ofText sampleContext [.amendment addManual] with
  | error fault =>
    rw [hfirst] at hplan
    cases hplan
  | ok plan =>
    rw [hfirst] at hplan
    have hboth : (plan.action, plan.after) = (.modify, some sampleAfter) := Option.some.inj hplan
    rw [Prod.mk.injEq] at hboth
    obtain ⟨again, hagain, hkeep, hafter⟩ := (@visit_twice addManual (by decide)
      sampleContext).2 sampleDocs plan sampleAfter hdocs hfirst hboth.2 hback
    exact ⟨plan, again, rfl, hboth.1, hagain, hkeep, hafter⟩

end Amendment

end WorkflowRecipes
