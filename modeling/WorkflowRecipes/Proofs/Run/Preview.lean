import WorkflowRecipes.Proofs.Plan.Composition
import WorkflowRecipes.Proofs.Plan.Isolation
import WorkflowRecipes.Proofs.Run.Completion

/-!
# Dry runs and checks

A dry run and a check make the plan that the run itself would make, and stop there. So they leave
everything as it was, and tell what the run would do.

Results:
1. `outcome_preview`: how they end.
2. `rewrites_of_plan`: what the run itself does with the same plan.
3. `previews`: that they change nothing, when a check fails, and what texts the plan holds.
-/

namespace WorkflowRecipes.Run

open Disk

variable {setting : Setting} {run : Run} {before : Disk}

/-- A dry run or a check ends with the plan: it fails because files would be modified, or gives the
verdict of a run that modified none. -/
theorem outcome_preview (h : run.isDry = true ∨ run.isCheck = true) (disk : Disk) :
    outcome (run.apply setting) disk =
      match outcome (Plan.ofRepository run.name run.root run.recipes) disk with
      | (.error fault, after) => (.error fault, after)
      | (.ok plan, planned) =>
        (if run.isCheck && decide (0 < plan.modified) then .error (.pending plan.modified)
          else verdict setting run plan 0, planned) := by
  have hstop : (run.isDry || run.isCheck) = true := by
    rw [Bool.or_eq_true]
    exact h
  unfold apply
  rw [outcome_bind]
  rcases outcome (Plan.ofRepository run.name run.root run.recipes) disk with ⟨result, planned⟩
  cases result with
  | error fault => rfl
  | ok plan =>
    dsimp only
    rw [hstop, if_pos rfl]
    split
    · exact outcome_throw _ _
    · unfold verdict
      split
      · exact outcome_throw _ _
      · exact outcome_pure _ _

/-- A check of a plan that is made fails exactly if files would be modified by it. -/
theorem outcome_check {plan : Plan} {planned : Disk}
    (hplan : outcome (Plan.ofRepository run.name run.root run.recipes) before = (.ok plan, planned))
    (isDry : Bool) :
    outcome ({ run with isDry, isCheck := true }.apply setting) before =
      (if 0 < plan.modified then .error (.pending plan.modified)
        else verdict setting run plan 0, planned) := by
  rw [outcome_preview (.inr rfl), hplan]
  dsimp only
  rw [Bool.true_and]
  simp only [decide_eq_true_eq]
  rfl

/-- Dry runs and checks leave everything as it was, whatever goes wrong. -/
theorem untouched_of_preview (h : run.isDry = true ∨ run.isCheck = true) (before : Disk) :
    Plan.Untouched before (outcome (run.apply setting) before).2 := by
  have hplan := Plan.ofRepository_ends run.name run.root run.recipes before
  rw [outcome_preview h]
  rcases ho : outcome (Plan.ofRepository run.name run.root run.recipes) before with
    ⟨result, planned⟩
  have hends := hplan.of_outcome ho
  cases result with
  | error fault => exact hends.1
  | ok plan => exact hends.1

/-- Whenever there is a plan, it can be carried out: all files are written, and all events are
appended to the log. -/
def WritesSucceed (setting : Setting) (run : Run) (before : Disk) : Prop :=
  ∀ plan planned,
    outcome (Plan.ofRepository run.name run.root run.recipes) before = (.ok plan, planned) →
      ∃ modified after, outcome (run.carryOut setting plan) planned = (.ok modified, after)

/-- A run rewrites a number of files: it carries out a plan by which so many are modified, and gives
its verdict. -/
def Rewrites (setting : Setting) (run : Run) (count : Nat) (before after : Disk) : Prop :=
  ∃ plan planned,
    outcome (Plan.ofRepository run.name run.root run.recipes) before = (.ok plan, planned) ∧
      plan.modified = count ∧ Completed setting run plan before after ∧
        outcome (run.apply setting) before = (verdict setting run plan count, after)

/-- What a run does with its plan, if everything can be written. -/
theorem rewrites_of_plan (hdry : run.isDry = false) (hcheck : run.isCheck = false)
    (ground : run.Ground before.tree before.home) (hwrites : run.WritesSucceed setting before)
    {plan : Plan} {planned : Disk} (hplan : run.Plans before plan planned) :
    ∃ after, Stage run setting before.tree before.home (run.deeds setting plan) after ∧
      Completed setting run plan before after ∧
        outcome (run.apply setting) before = (verdict setting run plan plan.modified, after) := by
  obtain ⟨modified, after, hcarried⟩ := hwrites plan planned hplan.made
  obtain ⟨rfl, hstage⟩ := (hplan.carryOut_ends ground).of_outcome hcarried
  refine ⟨after, hstage, completed_of_stage hplan ground hstage, ?_⟩
  rw [outcome_apply hdry hcheck, hplan.made]
  dsimp only
  rw [hcarried]

theorem verdict_ne_pending (plan : Plan) (modified count : Nat) :
    verdict setting run plan modified ≠ .error (.pending count) := by
  unfold verdict
  split
  · nofun
  · nofun

theorem plan_of_verdict {plan : Plan} {modified : Nat} {report : RunReport}
    (h : verdict setting run plan modified = .ok report) : report.plan = plan := by
  unfold verdict at h
  split at h
  · cases h
  · cases h
    rfl

/-- A check fails because of files to be modified exactly if the run rewrites that many. -/
theorem pending_iff (hdry : run.isDry = false) (hcheck : run.isCheck = false)
    (ground : run.Ground before.tree before.home) (htruth : before.Truthful)
    (hwrites : run.WritesSucceed setting before) (isDry : Bool) (count : Nat) :
    (outcome ({ run with isDry, isCheck := true }.apply setting) before).1 =
        .error (.pending count) ↔
      0 < count ∧ ∃ after, run.Rewrites setting count before after := by
  rcases hplan : outcome (Plan.ofRepository run.name run.root run.recipes) before with
    ⟨result, planned⟩
  constructor
  · intro hpending
    cases result with
    | error fault =>
      rw [outcome_preview (.inr rfl), hplan] at hpending
      cases hpending
      nomatch (Plan.ofRepository_spent ground.wellFormed htruth _ _ _).of_outcome hplan
    | ok plan =>
      rw [outcome_check hplan] at hpending
      dsimp only at hpending
      split at hpending
      · next hpositive =>
        cases hpending
        obtain ⟨after, -, hcompleted, happly⟩ :=
          rewrites_of_plan hdry hcheck ground hwrites (.of_outcome hplan)
        exact ⟨hpositive, after, plan, planned, hplan, rfl, hcompleted, happly⟩
      · exact absurd hpending (verdict_ne_pending plan 0 count)
  · rintro ⟨hpositive, after, plan, planned', hplan', rfl, -, -⟩
    rw [outcome_check hplan', if_pos hpositive]

/-- A check that does not fail so has found that the run changes nothing but the log. -/
theorem kept_of_not_pending (hdry : run.isDry = false) (hcheck : run.isCheck = false)
    (ground : run.Ground before.tree before.home)
    (hwrites : run.WritesSucceed setting before) (isDry : Bool)
    (hnone : ∀ count, (outcome ({ run with isDry, isCheck := true }.apply setting) before).1 ≠
      .error (.pending count))
    {route : Route} (hroute : run.logRoute? before.tree before.home ≠ some route) :
    (outcome (run.apply setting) before).2.tree.get? route = before.tree.get? route ∨
      before.tree.get? route = none ∧
        ∃ mode, (outcome (run.apply setting) before).2.tree.get? route = some (.directory mode) := by
  rcases hplan : outcome (Plan.ofRepository run.name run.root run.recipes) before with
    ⟨result, planned⟩
  cases result with
  | error fault =>
    have hends := (Plan.ofRepository_ends run.name run.root run.recipes before).of_outcome hplan
    rw [outcome_apply hdry hcheck, hplan]
    exact .inl (congrArg (·.get? route) hends.1.1)
  | ok plan =>
    have hzero : plan.modified = 0 := by
      by_contra hpositive
      refine hnone plan.modified ?_
      rw [outcome_check hplan, if_pos (Nat.pos_of_ne_zero hpositive)]
    obtain ⟨after, -, hcompleted, happly⟩ :=
      rewrites_of_plan hdry hcheck ground hwrites (.of_outcome hplan)
    rw [happly]
    refine hcompleted.other route (fun file hfile haction => ?_) hroute
    have hkept := List.countP_eq_zero.mp hzero file hfile
    exact absurd (decide_eq_true haction) hkept

/-- The entry of a file in the plan of a dry run holds the text that the run leaves in the file, if
it holds one; if not, the run leaves the file as it is. -/
theorem textAfter_of_stage {plan : Plan} {planned after : Disk}
    (hplan : run.Plans before plan planned) (ground : run.Ground before.tree before.home)
    (hstage : Stage run setting before.tree before.home (run.deeds setting plan) after)
    {file : FilePlan} (hfile : file ∈ plan.files)
    (hentry : Plan.IsEntry before.tree before.home run.root run.recipes file) :
    ∃ octets, before.tree.read before.home (Path.join run.root file.path) = .ok octets ∧
      if FilePlan.holdsText run.recipes file.path octets then
        after.tree.readText before.home (Path.join run.root file.path) = .ok file.textAfter
      else file.textAfter = "" ∧
        after.tree.read before.home (Path.join run.root file.path) = .ok octets := by
  obtain ⟨octets, hread, hoctets⟩ := hentry
  have hholds := FilePlan.ofOctets_holds hoctets
  have hpath := hplan.mem_files hfile
  have hlast : Deed.lastText? (run.deeds setting plan) file.path = file.after := by
    rw [lastText?_deeds (hplan.nodup ground) hfile, FilePlan.newText?]
    split
    · rfl
    · next haction =>
      exact (Option.not_isSome_iff_eq_none.mp fun h =>
        haction ((hplan.modify_iff hfile).mpr h)).symm
  refine ⟨octets, hread, ?_⟩
  unfold FilePlan.textAfter
  split
  · next hheld =>
    rw [if_pos hheld] at hholds
    cases hafter : file.after with
    | some text => exact hstage.effect.readText ground hpath (hlast.trans hafter)
    | none =>
      unfold FileTree.readText
      rw [hstage.effect.read ground hpath (hlast.trans hafter), hread]
      simp only [Except.bind, hholds, Option.getD_none]
  · next hheld =>
    rw [if_neg hheld] at hholds
    obtain ⟨hbefore, hafter⟩ := hholds
    rw [hafter, hbefore, hstage.effect.read ground hpath (hlast.trans hafter)]
    exact ⟨rfl, hread⟩

/-- Dry runs and checks leave everything as it was, whatever goes wrong, and tell what the run would
do if everything can be written. A check fails because of files to be modified exactly if the run
rewrites that many; else the run changes nothing but the log. The plan of a dry run that succeeds
holds the texts that the run leaves, but for files that no recipe is meant for or that are no text:
it holds none for those, and the run leaves them as they are. -/
theorem previews :
    (∀ (setting : Setting) (run : Run) (before : Disk), run.isDry = true ∨ run.isCheck = true →
      Plan.Untouched before (outcome (run.apply setting) before).2) ∧
    ∀ (setting : Setting) (run : Run) (before : Disk), run.isDry = false → run.isCheck = false →
      run.Ground before.tree before.home → before.Truthful → run.WritesSucceed setting before →
      (∀ isDry count, (outcome ({ run with isDry, isCheck := true }.apply setting) before).1 =
          .error (.pending count) ↔
        0 < count ∧ ∃ after, run.Rewrites setting count before after) ∧
      (∀ isDry, (∀ count,
          (outcome ({ run with isDry, isCheck := true }.apply setting) before).1 ≠
            .error (.pending count)) →
        ∀ after, (outcome (run.apply setting) before).2 = after →
          ∀ route, run.logRoute? before.tree before.home ≠ some route →
            after.tree.get? route = before.tree.get? route ∨
              before.tree.get? route = none ∧
                ∃ mode, after.tree.get? route = some (.directory mode)) ∧
      ∀ isCheck report previewed,
        outcome ({ run with isDry := true, isCheck }.apply setting) before =
          (.ok report, previewed) →
        report.plan.files.map (·.path) = Discover.files before.tree before.home run.root ∧
        ∀ after, (outcome (run.apply setting) before).2 = after →
          ∀ file ∈ report.plan.files, ∃ octets,
            before.tree.read before.home (Path.join run.root file.path) = .ok octets ∧
              if FilePlan.holdsText run.recipes file.path octets then
                after.tree.readText before.home (Path.join run.root file.path) =
                  .ok file.textAfter
              else file.textAfter = "" ∧
                after.tree.read before.home (Path.join run.root file.path) = .ok octets := by
  refine ⟨fun _ _ before h => untouched_of_preview h before, ?_⟩
  intro setting run before hdry hcheck ground htruth hwrites
  refine ⟨pending_iff hdry hcheck ground htruth hwrites, ?_, ?_⟩
  · rintro isDry hnone after rfl route hroute
    exact kept_of_not_pending hdry hcheck ground hwrites isDry hnone hroute
  · intro isCheck report previewed hreport
    rw [outcome_preview (.inl rfl)] at hreport
    rcases hplan : outcome (Plan.ofRepository run.name run.root run.recipes) before with
      ⟨result, planned⟩
    rw [hplan] at hreport
    cases result with
    | error fault => cases hreport
    | ok plan =>
      have hplans : run.Plans before plan planned := .of_outcome hplan
      obtain ⟨-, hentries⟩ :=
        (Plan.ofRepository_spent ground.wellFormed htruth run.name run.root run.recipes).of_outcome
          hplan
      obtain ⟨last, hstage, -, happly⟩ := rewrites_of_plan hdry hcheck ground hwrites hplans
      obtain rfl : report.plan = plan := by
        dsimp only at hreport
        split at hreport
        · cases hreport
        · exact plan_of_verdict (congrArg Prod.fst hreport)
      refine ⟨hplans.paths, ?_⟩
      rintro after rfl file hfile
      rw [happly]
      exact textAfter_of_stage hplans ground hstage hfile (hentries file hfile)

/-! ### Previews of runs on the small tree -/

/-- A run that ends with a report could write all that it had to. -/
theorem writesSucceed_of_report (hdry : run.isDry = false) (hcheck : run.isCheck = false)
    (h : (outcome (run.apply setting) before).1.toOption.isSome = true) :
    run.WritesSucceed setting before := by
  intro plan planned hplan
  rw [outcome_apply hdry hcheck, hplan] at h
  dsimp only at h
  rcases hcarried : outcome (run.carryOut setting plan) planned with ⟨result, after⟩
  cases result with
  | error fault =>
    rw [hcarried] at h
    cases h
  | ok modified => exact ⟨modified, after, rfl⟩

/-- A check finds the one file that the run on the small tree rewrites. -/
theorem previews_sample :
    sampleRun.Ground sampleTree [] ∧
      (outcome ({ sampleRun with isDry := false, isCheck := true }.apply sampleSetting)
        { tree := sampleTree }).1 = .error (.pending 1) ∧
      Plan.Untouched { tree := sampleTree } (outcome
        ({ sampleRun with isDry := false, isCheck := true }.apply sampleSetting)
          { tree := sampleTree }).2 ∧
      ∃ after, sampleRun.Rewrites sampleSetting 1 { tree := sampleTree } after := by
  have hpending : (outcome ({ sampleRun with isDry := false, isCheck := true }.apply sampleSetting)
      { tree := sampleTree }).1 = .error (.pending 1) := by
    decide +kernel
  have hmodified := congrArg Option.isSome modified_sample
  rw [Option.isSome_map] at hmodified
  have hwrites : sampleRun.WritesSucceed sampleSetting { tree := sampleTree } :=
    writesSucceed_of_report rfl rfl hmodified
  obtain ⟨huntouched, hpredicts⟩ := previews
  obtain ⟨hcheck, -⟩ := hpredicts sampleSetting sampleRun { tree := sampleTree } rfl rfl
    ground_sample (Disk.truthful_of_tree _) hwrites
  exact ⟨ground_sample, hpending, huntouched _ _ _ (.inr rfl), ((hcheck false 1).mp hpending).2⟩

/-- A run whose recipe is not meant for the workflow of the small tree. -/
def idleRun : Run := { sampleRun with recipes := [.amendment (.addCooldown {})] }

/-- The plan of its dry run does not hold the text that the run leaves in the workflow. -/
theorem dry_plan_without_text :
    idleRun.Ground sampleTree [] ∧
      (outcome (idleRun.apply sampleSetting) { tree := sampleTree }).1.toOption.isSome = true ∧
      (outcome (idleRun.apply sampleSetting) { tree := sampleTree }).2.tree.readText []
        "/.github/workflows/ci.yml" = .ok "on: \x7b\x7d\n" ∧
      (outcome ({ idleRun with isDry := true }.apply sampleSetting)
        { tree := sampleTree }).1.toOption.map (·.plan.files.map fun file =>
          (file.path, file.textAfter)) = some [(".github/workflows/ci.yml", "")] :=
  ⟨⟨ground_sample.wellFormed, ground_sample.logApart⟩, by decide +kernel, by decide +kernel,
    by decide +kernel⟩

end WorkflowRecipes.Run
