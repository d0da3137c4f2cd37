import WorkflowRecipes.Proofs.Run.Performance

/-!
# Runs that come to their end

A run that ends as it should, with or without findings, has carried out its plan: the files that are
to be modified hold their new texts, all others what they held, and the log has the events.

Results:
1. `outcome_apply`: how a run ends, from how its two parts end.
2. `apply_ending`: the three ways in which a run may end.
3. `apply_completes`: what a run that comes to its end has done.
-/

namespace WorkflowRecipes.Run

open Disk

/-- What a run has done when it came to its end. -/
structure Completed (setting : Setting) (run : Run) (plan : Plan) (before after : Disk) :
    Prop where
  /-- A file that is to be modified holds its new text, with the permission bits it had. -/
  modified : ∀ file ∈ plan.files, file.action = .modify →
    before.tree.readText before.home (Path.join run.root file.path) = .ok file.before ∧
      (∃ text, file.after = some text ∧
        after.tree.readText before.home (Path.join run.root file.path) = .ok text) ∧
        after.tree.mode? before.home (Path.join run.root file.path) =
          before.tree.mode? before.home (Path.join run.root file.path)
  /-- All else but the log is as it was. There may be new directories on the way to the log. -/
  other : ∀ route, (∀ file ∈ plan.files, file.action = .modify →
      before.tree.resolve before.home true (Path.join run.root file.path) ≠ .ok route) →
    run.logRoute? before.tree before.home ≠ some route →
      after.tree.get? route = before.tree.get? route ∨
        before.tree.get? route = none ∧ ∃ mode, after.tree.get? route = some (.directory mode)
  /-- The log, if there is one, has the events after what it held. -/
  log : ∀ path, run.policy.eventLog = some path →
    ∃ route mode, run.logRoute? before.tree before.home = some route ∧
      after.tree.resolve before.home true (Path.join run.root path) = .ok route ∧
        after.tree.get? route = some (.file (before.tree.contentAt route ++
          RunEvent.lines setting.time (run.events setting plan)) mode)

/-- How a run ends whose plan is carried out: with a report, or because of findings. -/
def verdict (setting : Setting) (run : Run) (plan : Plan) (modified : Nat) :
    Except RunError RunReport :=
  if run.policy.failsOnFindings && !plan.findings.isEmpty then .error (.findings plan.findings.length)
  else .ok { runName := setting.runName, plan, modified }

variable {setting : Setting} {run : Run} {plan : Plan}

/-- A run makes its plan, then carries it out, then gives its verdict. -/
theorem outcome_apply (hdry : run.isDry = false) (hcheck : run.isCheck = false) (disk : Disk) :
    outcome (run.apply setting) disk =
      match outcome (Plan.ofRepository run.name run.root run.recipes) disk with
      | (.error fault, after) => (.error fault, after)
      | (.ok plan, planned) =>
        match outcome (run.carryOut setting plan) planned with
        | (.error fault, after) => (.error fault, after)
        | (.ok modified, after) => (verdict setting run plan modified, after) := by
  unfold apply
  rw [outcome_bind]
  rcases outcome (Plan.ofRepository run.name run.root run.recipes) disk with ⟨result, planned⟩
  cases result with
  | error fault => rfl
  | ok plan =>
    simp only [hdry, hcheck, Bool.false_and, Bool.false_eq_true, if_false, Bool.or_self]
    rw [outcome_bind]
    rcases outcome (run.carryOut setting plan) planned with ⟨result, after⟩
    cases result with
    | error fault => rfl
    | ok modified =>
      unfold verdict
      dsimp only
      split
      · exact outcome_throw _ _
      · exact outcome_pure _ _

/-! ## The plan of a run -/

/-- A run makes a plan on a disk, and leaves the disk as it was. The plan is for the files that are
found there, and fits them. -/
structure Plans (run : Run) (before : Disk) (plan : Plan) (planned : Disk) : Prop where
  made : outcome (Plan.ofRepository run.name run.root run.recipes) before = (.ok plan, planned)
  untouched : Plan.Untouched before planned
  paths : plan.files.map (·.path) = Discover.files before.tree before.home run.root
  fits : ∀ file ∈ plan.files, Plan.Fits before.tree before.home run.root file

namespace Plans

variable {before planned : Disk}

theorem of_outcome
    (h : outcome (Plan.ofRepository run.name run.root run.recipes) before = (.ok plan, planned)) :
    run.Plans before plan planned :=
  have hends := (Plan.ofRepository_ends run.name run.root run.recipes before).of_outcome h
  ⟨h, hends.1, hends.2.1, hends.2.2⟩

variable (h : run.Plans before plan planned)
include h

theorem modify_iff {file : FilePlan} (hfile : file ∈ plan.files) :
    file.action = .modify ↔ file.after.isSome :=
  (h.fits file hfile).modify_iff

theorem mem_files {file : FilePlan} (hfile : file ∈ plan.files) :
    file.path ∈ Discover.files before.tree before.home run.root :=
  h.paths ▸ List.mem_map_of_mem hfile

theorem nodup (ground : run.Ground before.tree before.home) :
    (plan.files.map (·.path)).Nodup := by
  rw [h.paths]
  exact Discover.files_nodup ground.wellFormed _ _

theorem carryOut_ends (ground : run.Ground before.tree before.home) :
    Ends (run.carryOut setting plan) planned (Either
      (fun modified after => modified = plan.modified ∧
        Stage run setting before.tree before.home (run.deeds setting plan) after)
      (HaltedWithin run setting before.tree before.home [] (run.deeds setting plan))) :=
  Run.carryOut_ends ground h.paths (fun _ hfile => h.modify_iff hfile) h.untouched.2 h.untouched.1

end Plans

/-- How a run ends, and what it has done by then: it has no plan, or some step failed while the plan
was carried out, or all of the plan was carried out. -/
inductive Ending (setting : Setting) (run : Run) (before : Disk) :
    Except RunError RunReport → Disk → Prop
  | unplanned {fault : RunError} {after : Disk} :
      outcome (Plan.ofRepository run.name run.root run.recipes) before = (.error fault, after) →
      (∀ count, fault ≠ .findings count) → after.tree = before.tree →
      Ending setting run before (.error fault) after
  | halted {plan : Plan} {planned after : Disk} {done : List Deed} {fault : RunError} :
      run.Plans before plan planned → done <+: run.deeds setting plan →
      done ≠ run.deeds setting plan →
      Halted run setting before.tree before.home done fault after →
      Ending setting run before (.error fault) after
  | finished {plan : Plan} {planned after : Disk} :
      run.Plans before plan planned →
      outcome (run.carryOut setting plan) planned = (.ok plan.modified, after) →
      Stage run setting before.tree before.home (run.deeds setting plan) after →
      Ending setting run before (verdict setting run plan plan.modified) after

theorem apply_ending {before after : Disk} {result : Except RunError RunReport}
    (hdry : run.isDry = false) (hcheck : run.isCheck = false)
    (ground : run.Ground before.tree before.home)
    (h : outcome (run.apply setting) before = (result, after)) :
    Ending setting run before result after := by
  rw [outcome_apply hdry hcheck] at h
  rcases hmade : outcome (Plan.ofRepository run.name run.root run.recipes) before with
    ⟨planning, planned⟩
  rw [hmade] at h
  cases planning with
  | error fault =>
    cases h
    have hfailed := (Plan.ofRepository_ends run.name run.root run.recipes before).of_outcome hmade
    exact .unplanned hmade hfailed.2 hfailed.1.1
  | ok plan =>
    have hplan : run.Plans before plan planned := .of_outcome hmade
    dsimp only at h
    rcases hcarried : outcome (run.carryOut setting plan) planned with ⟨carried, last⟩
    have hcarry := (hplan.carryOut_ends ground).of_outcome hcarried
    rw [hcarried] at h
    cases carried with
    | error fault =>
      cases h
      obtain ⟨done, hbegun, hne, hhalted⟩ := hcarry
      exact .halted hplan hbegun hne hhalted
    | ok modified =>
      obtain ⟨rfl, hstage⟩ := hcarry
      cases h
      exact .finished hplan hcarried hstage

/-! ## What is done -/

/-- When the deeds of a plan have had their effect, the plan is carried out. -/
theorem completed_of_stage {before planned after : Disk} (hplan : run.Plans before plan planned)
    (ground : run.Ground before.tree before.home)
    (h : Stage run setting before.tree before.home (run.deeds setting plan) after) :
    Completed setting run plan before after := by
  have hnodup := hplan.nodup ground
  refine ⟨?_, ?_, ?_⟩
  · intro file hfile haction
    obtain ⟨text, htext⟩ := Option.isSome_iff_exists.mp ((hplan.modify_iff hfile).mp haction)
    have hnew : file.newText? = some text := by rw [FilePlan.newText?, if_pos haction, htext]
    have hlast : Deed.lastText? (run.deeds setting plan) file.path = some text :=
      (lastText?_deeds hnodup hfile).trans hnew
    exact ⟨(hplan.fits file hfile).before haction,
      ⟨text, htext, h.effect.readText ground (hplan.mem_files hfile) hlast⟩,
      h.effect.mode? ground (hplan.mem_files hfile)⟩
  · intro route hroute hlog
    by_cases hfile : ∃ path ∈ Discover.files before.tree before.home run.root,
        before.tree.resolve before.home true (Path.join run.root path) = .ok route
    · -- The route is that of a file that was found and is not to be modified.
      obtain ⟨path, hpath, hr⟩ := hfile
      obtain ⟨file, hfile, rfl⟩ := List.mem_map.mp (hplan.paths ▸ hpath)
      have hkept : file.newText? = none := by
        rw [FilePlan.newText?, if_neg fun haction => hroute file hfile haction hr]
      have hlast : Deed.lastText? (run.deeds setting plan) file.path = none :=
        (lastText?_deeds hnodup hfile).trans hkept
      obtain ⟨route', content, mode, hr', hf, -, hnow⟩ := h.effect.lead ground hpath
      rw [hr] at hr'
      cases hr'
      rw [hlast] at hnow
      exact .inl (hnow.trans hf.symm)
    · exact h.effect.other route (fun path hpath hr => hfile ⟨path, hpath, hr⟩) hlog
  · intro path hpath
    obtain ⟨route, content, mode, hlog, hr, hf⟩ := h.logReady path hpath
    refine ⟨route, mode, hlog, hr, ?_⟩
    have hcontent := h.effect.log route hlog
    rw [FileTree.contentAt_of_file hf, events_deeds] at hcontent
    rw [hf, hcontent]

/-- A tree with one workflow. -/
def sampleTree : FileTree :=
  ((({} : FileTree).put [".github"] (.directory FileTree.directoryMode)).put
    [".github", "workflows"] (.directory FileTree.directoryMode)).put
      [".github", "workflows", "ci.yml"] (.file "on: \x7b\x7d\n".toUTF8 FileTree.fileMode)

/-- A run that changes the workflow, and has a log. -/
def sampleRun : Run :=
  { name := "sample", recipes := [.amendment .addManual]
    policy := { eventLog := some "run.log" }, root := "/" }

def sampleSetting : Setting :=
  { directory := "/", temporaryName := "new", runName := "1", time := "now" }

theorem wellFormed_sampleTree : sampleTree.WellFormed :=
  FileTree.wellFormed_workflowsTree.put [".github", "workflows"] "ci.yml"
    FileTree.get?_workflowsTree (Option.isNone_iff_eq_none.mp (by decide +kernel))
    (by decide +kernel) _

theorem ground_sample : sampleRun.Ground sampleTree [] := by
  refine ⟨wellFormed_sampleTree, ?_⟩
  have hfiles : Discover.files sampleTree [] sampleRun.root = [".github/workflows/ci.yml"] := by
    decide +kernel
  have hlog : sampleRun.logRoute? sampleTree [] = some ["run.log"] := by decide +kernel
  have hfile : sampleTree.resolve [] true (Path.join sampleRun.root ".github/workflows/ci.yml") =
      .ok [".github", "workflows", "ci.yml"] := by decide +kernel
  intro path hpath route hr
  rw [hfiles, List.mem_singleton] at hpath
  subst hpath
  rw [hfile] at hr
  cases hr
  rw [hlog]
  decide

/-- The run modifies the one file of the small tree. -/
theorem modified_sample :
    (outcome (sampleRun.apply sampleSetting) { tree := sampleTree }).1.toOption.map (·.modified) =
      some 1 := by
  decide +kernel

end WorkflowRecipes.Run
