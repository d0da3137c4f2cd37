import WorkflowRecipes.Amendment.Action
import WorkflowRecipes.Proofs.Audit.MovableRefs
import WorkflowRecipes.Proofs.Document.Keeping

/-!
# Steps that are given another ref

The ref of an action is changed in the steps that name the action, and nothing else is. What an
audit of refs says of these steps afterwards depends on the new ref: commits are never reported,
branches and versions of a repository always are.

Results:
1. `retargets_step`: what becomes of a step.
2. `finding?_step`: what is reported of it afterwards.
3. `visit_audited`: what becomes of a document, and what is reported of it.
-/

namespace WorkflowRecipes

/-! ## What is meant -/

/-- The text under `uses` gives way to another one, and all else is kept. -/
inductive Retarget.Rewritten (target : String) (location : Location) :
    Entries → Editing Entries → Prop
  | kept {step : Entries} : Rewritten target location step (pure step)
  | changed {before after : Entries} {value : Value} {old : String} :
      before.hasKey "uses" = false → value.text? = some old → old ≠ target →
      Rewritten target location (before ++ (.string "uses", value) :: after)
        ⟨before ++ (.string "uses", .string target) :: after,
          [⟨location.key "uses", arrow old target⟩]⟩

namespace ChangeActionVersion

/-- The reference that steps are given. -/
def target (options : ChangeActionVersion) : String := options.action ++ "@" ++ options.version

/-- What becomes of a step. -/
structure Retargets (options : ChangeActionVersion) (location : Location) (step : Entries)
    (change : Editing Entries) : Prop where
  named : step.NamesAction options.action → change.result.uses? = some options.target
  other : ¬ step.NamesAction options.action → change = pure step
  rewritten : Retarget.Rewritten options.target location step change

variable {options : ChangeActionVersion} {location : Location} {step : Entries} {old : String}

/-! ## Steps -/

theorem step_of_other (h : '@' ∉ options.action.toList)
    (hother : ¬ step.NamesAction options.action) :
    Retarget.step options.action options.target location step = pure step := by
  unfold Retarget.step
  cases huses : step.uses? with
  | none => rfl
  | some old =>
    refine if_neg fun hnamed => hother ⟨old, huses, ?_⟩
    exact (ActionRef.name_ofText_eq_iff h).mp (beq_iff_eq.mp hnamed.1)

theorem step_of_target (h : step.uses? = some options.target) :
    Retarget.step options.action options.target location step = pure step := by
  unfold Retarget.step
  rw [h]
  exact if_neg fun hnamed => hnamed.2 rfl

theorem step_of_named (h : '@' ∉ options.action.toList)
    (hnames : step.NamesAction options.action) (huses : step.uses? = some old)
    (hne : old ≠ options.target) :
    Retarget.step options.action options.target location step =
      ⟨step.set "uses" (.string options.target),
        [⟨location.key "uses", arrow old options.target⟩]⟩ := by
  obtain ⟨uses, huses', hname⟩ := hnames
  obtain rfl := Option.some.inj (huses.symm.trans huses')
  unfold Retarget.step
  rw [huses]
  exact if_pos ⟨beq_iff_eq.mpr ((ActionRef.name_ofText_eq_iff h).mpr hname), hne⟩

/-- A step that names the action has the reference afterwards. Nothing else changes in it, and in
other steps nothing changes at all. -/
theorem retargets_step (h : '@' ∉ options.action.toList) (location : Location) (step : Entries) :
    options.Retargets location step
      (Retarget.step options.action options.target location step) := by
  by_cases hnames : step.NamesAction options.action
  · obtain ⟨old, huses, -⟩ := id hnames
    by_cases htarget : old = options.target
    · rw [htarget] at huses
      rw [step_of_target huses]
      exact ⟨fun _ => huses, fun _ => rfl, .kept⟩
    · rw [step_of_named h hnames huses htarget]
      refine ⟨fun _ => Entries.text?_set_self .., fun hother => absurd hnames hother, ?_⟩
      obtain ⟨value, hvalue, htext⟩ := Option.bind_eq_some_iff.mp huses
      obtain ⟨before, after, rfl, hbefore⟩ := Entries.exists_split hvalue
      rw [Entries.set_split hbefore]
      exact .changed hbefore htext htarget
  · rw [step_of_other h hnames]
    exact ⟨fun hnamed => absurd hnamed hnames, fun _ => rfl, .kept⟩

/-! ## What is reported -/

/-- What is reported of a step afterwards: if it names the action, what is said of the new
reference, and else what was reported before. -/
theorem finding?_step (h : '@' ∉ options.action.toList) (step : Location × Entries) :
    Unpinned.finding?
        (Value.changedBy (Retarget.step options.action options.target) step) =
      if step.2.NamesAction options.action then
        (Unpinned.reason? options.target).map fun reason => ⟨step.1.key "uses", reason⟩
      else Unpinned.finding? step := by
  have hstep := retargets_step h step.1 step.2
  unfold Unpinned.finding? Value.changedBy
  split
  · next hnames => rw [hstep.named hnames, Option.bind_some]
  · next hother => rw [hstep.other hother, Editing.result_pure]

theorem findings_visit (h : '@' ∉ options.action.toList) (doc : Value) :
    Unpinned.findings (options.visit doc).result = doc.steps.filterMap fun step =>
      if step.2.NamesAction options.action then
        (Unpinned.reason? options.target).map fun reason => ⟨step.1.key "uses", reason⟩
      else Unpinned.finding? step := by
  rw [Unpinned.findings_eq, visit, Retarget.all, Value.steps_overSteps, List.filterMap_map]
  exact List.filterMap_congr fun step _ => finding?_step h step

/-- All steps that name the action have the reference afterwards, with one edit for each that had
another one, and nothing else changes. If the new ref is a commit, none of these steps is reported;
if it can be moved and the action is a repository, each of them is. Of the other steps the same is
reported as before. -/
theorem visit_audited (options : ChangeActionVersion) (h : '@' ∉ options.action.toList)
    (doc : Value) :
    Value.ChangesSteps options.Retargets doc (options.visit doc) ∧
    (Unpinned.IsCommit options.version →
      Unpinned.findings (options.visit doc).result =
        (doc.steps.filter fun step => ¬ step.2.NamesAction options.action).filterMap
          Unpinned.finding?) ∧
    (Unpinned.IsRepository options.action.toList →
      (ActionRef.ofText options.action).isRemote = true →
      Unpinned.IsMovable options.version.toList → ¬ Unpinned.IsCommit options.version →
      Unpinned.findings (options.visit doc).result = doc.steps.filterMap fun step =>
        if step.2.NamesAction options.action then
          some ⟨step.1.key "uses",
            "unpinned action: " ++ options.action ++ " uses mutable ref " ++ options.version⟩
        else Unpinned.finding? step) := by
  refine ⟨Value.changesSteps_overSteps (retargets_step h) doc, fun hcommit => ?_,
    fun haction hremote hversion hcommit => ?_⟩
  · rw [findings_visit h, List.filterMap_filter]
    refine List.filterMap_congr fun step _ => ?_
    rw [target, Unpinned.reason?_of_isCommit h hcommit]
    by_cases hnames : step.2.NamesAction options.action <;> simp [hnames]
  · rw [findings_visit h, target,
      Unpinned.reason?_of_isMovable h haction hremote hversion hcommit]
    rfl

/-! ## A workflow -/

/-- A workflow with a step that names an action, one that does not, and one without an action. -/
def sampleDoc : Value :=
  .mapping [(.string "jobs", .mapping [(.string "build", .mapping [(.string "steps", .sequence
    [.mapping [(.string "uses", .string "actions/checkout@v3")],
      .mapping [(.string "uses", .string "./build")],
      .mapping [(.string "run", .string "make")]])])])]

/-- The first step of the workflow. -/
def sampleLocation : Location := (Location.root.keys ["jobs", "build", "steps"]).index 0

/-- In the place of one version another one is reported, and a commit is not. -/
theorem visit_audited_sample :
    '@' ∉ "actions/checkout".toList ∧
    Unpinned.findings (visit ⟨"actions/checkout", "v4"⟩ sampleDoc).result =
      [⟨sampleLocation.key "uses", "unpinned action: actions/checkout uses mutable ref v4"⟩] ∧
    Unpinned.findings
      (visit ⟨"actions/checkout", "5ffc13f4174014e2d4d4572b3d74c3fa61aeb2c2"⟩ sampleDoc).result =
        [] := by
  have hname : '@' ∉ "actions/checkout".toList := by decide
  have hmoved := (visit_audited ⟨"actions/checkout", "v4"⟩ hname sampleDoc).2.2
  have hpinned := (visit_audited ⟨"actions/checkout", "5ffc13f4174014e2d4d4572b3d74c3fa61aeb2c2"⟩
    hname sampleDoc).2.1
  refine ⟨hname, (hmoved ?_ ?_ ?_ ?_).trans ?_, (hpinned ?_).trans ?_⟩
  · exact ⟨"actions".toList, "checkout".toList, rfl, by decide, by decide⟩
  · decide +kernel
  · exact .marked rfl ⟨['4'], [], rfl, by decide +kernel, nofun⟩
  · decide +kernel
  · decide +kernel
  · decide +kernel
  · decide +kernel

end ChangeActionVersion

end WorkflowRecipes
