import WorkflowRecipes.Proofs.Run.Completion

/-!
# Runs that are cut short

Any step of a run may fail. The run then ends with an error, and how far it came shows in the files
and in the log: some of the first files hold their new texts, the others their old ones, and the log
has some of the first events and lags behind the files by at most one.

Results:
1. `candid_apply`: a run that ends without an error, or because of findings, met no failing step.
2. `cutShort_of_halted`: what the deeds that were done before a run failed amount to.
3. `apply_cut_short`: what a run that fails has done.
-/

namespace WorkflowRecipes.Run

open Disk

/-- What a run has done when it failed: some of the first files are written, and some of the first
events are logged. -/
structure CutShort (setting : Setting) (run : Run) (plan : Plan) (before after : Disk)
    (written : List FilePlan) (logged : List RunEvent) : Prop where
  written_first : written <+: plan.files.filter fun file => file.action = .modify
  logged_first : logged <+: run.events setting plan
  not_completed : ∀ event ∈ logged, event.isCompleted = false
  /-- A file that was written holds the whole of its new text. -/
  new : ∀ file ∈ written, ∃ text, file.after = some text ∧
    after.tree.readText before.home (Path.join run.root file.path) = .ok text
  /-- Any other file of the plan holds what it held. -/
  old : ∀ file ∈ plan.files, file ∉ written →
    after.tree.read before.home (Path.join run.root file.path) =
      before.tree.read before.home (Path.join run.root file.path)
  /-- All else but the log is as it was. There may be new directories on the way to the log. -/
  other : ∀ route, (∀ file ∈ plan.files,
      before.tree.resolve before.home true (Path.join run.root file.path) ≠ .ok route) →
    run.logRoute? before.tree before.home ≠ some route →
      after.tree.get? route = before.tree.get? route ∨
        before.tree.get? route = none ∧ ∃ mode, after.tree.get? route = some (.directory mode)
  /-- The log has the events after what it held. -/
  log : ∀ route, run.logRoute? before.tree before.home = some route →
    after.tree.contentAt route =
      before.tree.contentAt route ++ RunEvent.lines setting.time logged
  /-- A file that the log names as modified holds the text with the digest in the log. -/
  digest : ∀ id path recipes edits first last, .modified id path recipes edits first last ∈ logged →
    (∃ file ∈ written, file.path = path) ∧ ∃ text,
      after.tree.readText before.home (Path.join run.root path) = .ok text ∧
        last = Digest.ofText text
  /-- At most one file that was written is not named in the log. -/
  lag : written.length ≤ logged.countP RunEvent.isModified + 1
  /-- No file is written before the start is logged. -/
  unstarted : logged = [] → written = []

variable {setting : Setting} {run : Run} {plan : Plan}

/-! ## Failing steps are not passed over -/

theorem candid_log (event : RunEvent) : Candid (fun _ => False) (run.log setting event) := by
  unfold log
  split
  · unfold RunEvent.append RunEvent.makeParent
    refine Candid.blame (Candid.bind ?_ fun _ => ?_) _
    · split
      · exact (Candid.change _).blame _
      · exact Candid.pure _
    · exact ((Candid.step _).blame _).bind fun _ => (Candid.change _).blame _
  · exact Candid.pure _

theorem candid_modifyFile (file : FilePlan) (text : String) :
    Candid (fun _ => False) (run.modifyFile setting file text) := by
  unfold modifyFile Disk.read
  refine ((candid_replaceFile _ _ _).blame _).bind fun _ => ?_
  refine ((Candid.look _).blame _).bind fun content => ?_
  dsimp only
  split
  · exact (Candid.throw _).bind fun _ => candid_log _
  · exact candid_log _

theorem candid_settle (file : FilePlan) :
    Candid (fun _ => False) (run.settle setting file) := by
  unfold settle
  have hfindings : ∀ isModified : Bool, Candid (fun _ => False) (do
      file.findings.forM fun finding => run.log setting (findingEvent setting file finding)
      return isModified) := fun isModified =>
    (Candid.forM (fun _ => candid_log _) _).bind fun _ => Candid.pure _
  simp only [pure_bind]
  split
  · exact (candid_modifyFile _ _).bind fun _ => hfindings true
  · exact hfindings false

theorem candid_carryOut (plan : Plan) :
    Candid (fun _ => False) (run.carryOut setting plan) := by
  unfold carryOut
  refine (candid_log _).bind fun _ => (Candid.mapM candid_settle _).bind fun outcomes => ?_
  exact (candid_log _).bind fun _ => Candid.pure _

/-! ## What is done when a run fails -/

/-- The files that are written first, by their paths. -/
theorem exists_written {done : List Deed} (h : done <+: run.deeds setting plan)
    (hfits : ∀ file ∈ plan.files, file.action = .modify ↔ file.after.isSome) :
    ∃ written, written <+: (plan.files.filter fun file => file.action = .modify) ∧
      Deed.paths done = written.map (·.path) := by
  have hpaths : Deed.paths done <+: Deed.paths (run.deeds setting plan) := h.filterMap Deed.path?
  have hfilter : (plan.files.filter fun file => file.newText?.isSome) =
      plan.files.filter fun file => file.action = .modify := by
    refine List.filter_congr fun file hfile => ?_
    by_cases haction : file.action = .modify
    · simp [FilePlan.newText?, haction, (hfits file hfile).mp haction]
    · simp [FilePlan.newText?, haction]
  rw [paths_deeds, hfilter] at hpaths
  refine ⟨_, List.take_prefix (Deed.paths done).length _, ?_⟩
  rw [List.map_take]
  exact (List.prefix_iff_eq_take.mp hpaths)

/-- What the deeds that were done before a run failed amount to. -/
theorem cutShort_of_halted {before planned after : Disk} (hplan : run.Plans before plan planned)
    (ground : run.Ground before.tree before.home) {done : List Deed}
    (hbegun : done <+: run.deeds setting plan) (hne : done ≠ run.deeds setting plan)
    (heffect : Effect run setting.time before.tree before.home done after.tree) :
    ∃ written logged, CutShort setting run plan before after written logged := by
  have hnodup := hplan.nodup ground
  obtain ⟨written, hwritten, hdone⟩ :=
    exists_written hbegun fun _ hfile => hplan.modify_iff hfile
  have hmem : ∀ file ∈ written, file ∈ plan.files ∧ file.action = .modify := by
    intro file hfile
    obtain ⟨hfile, haction⟩ := List.mem_filter.mp (hwritten.subset hfile)
    exact ⟨hfile, of_decide_eq_true haction⟩
  -- The paths of a plan tell its files apart.
  have hiff : ∀ file ∈ plan.files, file.path ∈ Deed.paths done ↔ file ∈ written := by
    intro file hfile
    rw [hdone]
    refine ⟨fun hin => ?_, List.mem_map_of_mem⟩
    obtain ⟨other, hother, hpath⟩ := List.mem_map.mp hin
    rwa [List.inj_on_of_nodup_map hnodup (hmem other hother).1 hfile hpath] at hother
  have hnew : ∀ file ∈ written, ∃ text, file.newText? = some text ∧ file.after = some text ∧
      after.tree.readText before.home (Path.join run.root file.path) = .ok text := by
    intro file hfile
    obtain ⟨hin, haction⟩ := hmem file hfile
    obtain ⟨text, htext⟩ := Option.isSome_iff_exists.mp ((hplan.modify_iff hin).mp haction)
    have hnewText : file.newText? = some text := by rw [FilePlan.newText?, if_pos haction, htext]
    have hlast := lastText?_of_begun hbegun hnodup hin
    rw [if_pos ((hiff file hin).mpr hfile), hnewText] at hlast
    exact ⟨text, hnewText, htext, heffect.readText ground (hplan.mem_files hin) hlast⟩
  refine ⟨written, Deed.events done, {
    written_first := hwritten
    logged_first := events_deeds ▸ hbegun.filterMap Deed.event?
    not_completed := fun _ hevent => not_completed_of_begun hbegun hne hevent
    new := fun file hfile => (hnew file hfile).imp fun _ h => h.2
    old := ?old
    other := ?other
    log := heffect.log
    digest := ?digest
    lag := ?lag
    unstarted := ?unstarted }⟩
  case old =>
    intro file hfile hnot
    refine heffect.read ground (hplan.mem_files hfile) ?_
    rw [lastText?_of_begun hbegun hnodup hfile, if_neg fun hin => hnot ((hiff file hfile).mp hin)]
  case other =>
    intro route hroute
    refine heffect.other route fun path hpath => ?_
    obtain ⟨file, hfile, rfl⟩ := List.mem_map.mp (hplan.paths ▸ hpath)
    exact hroute file hfile
  case digest =>
    intro id path recipes edits first last hevent
    obtain ⟨file, hfile, text, htext, hwrite, he⟩ := exists_write_of_begun hbegun hne rfl hevent
    cases he
    have hin : file ∈ written := (hiff file hfile).mp (Deed.mem_paths.mpr ⟨text, hwrite⟩)
    obtain ⟨text', hnewText, -, hread⟩ := hnew file hin
    cases htext.symm.trans hnewText
    exact ⟨⟨file, hin, rfl⟩, text, hread, rfl⟩
  case lag =>
    have hlag := length_paths_of_begun hbegun hne
    rwa [hdone, List.length_map] at hlag
  case unstarted =>
    intro hnone
    rw [paths_eq_nil_of_begun hbegun hne hnone] at hdone
    exact List.map_eq_nil_iff.mp hdone.symm

/-- A run either fails because a step of it did, or has a plan that is carried out. If the plan is
not made, nothing has changed; if it is not carried out, how far it came shows in the files and in
the log. A run that does not fail met no step that did, but for files that are no text. -/
theorem apply_cut_short {before after : Disk} {result : Except RunError RunReport}
    (hdry : run.isDry = false) (hcheck : run.isCheck = false)
    (ground : run.Ground before.tree before.home)
    (h : outcome (run.apply setting) before = (result, after)) :
    (∃ fault, result = .error fault ∧ (∀ count, fault ≠ .findings count) ∧
      (outcome (Plan.ofRepository run.name run.root run.recipes) before = (.error fault, after) ∧
          after.tree = before.tree ∨
        ∃ plan planned written logged,
          outcome (Plan.ofRepository run.name run.root run.recipes) before = (.ok plan, planned) ∧
            CutShort setting run plan before after written logged)) ∨
    ∃ plan planned,
      outcome (Plan.ofRepository run.name run.root run.recipes) before = (.ok plan, planned) ∧
        result = verdict setting run plan plan.modified ∧ Completed setting run plan before after ∧
          Clear (· = .notText) before planned ∧ Clear (fun _ => False) planned after := by
  cases apply_ending hdry hcheck ground h with
  | unplanned hmade hne htree => exact .inl ⟨_, rfl, hne, .inl ⟨hmade, htree⟩⟩
  | @halted plan planned after done fault hplan hbegun hne hhalted =>
    obtain ⟨written, logged, hcut⟩ :=
      cutShort_of_halted hplan ground hbegun hne hhalted.effect
    exact .inl ⟨fault, rfl, hhalted.ne_findings,
      .inr ⟨plan, planned, written, logged, hplan.made, hcut⟩⟩
  | @finished plan planned after hplan hcarried hstage =>
    exact .inr ⟨plan, planned, hplan.made, rfl, completed_of_stage hplan ground hstage,
      Plan.candid_ofRepository _ _ _ _ _ _ hplan.made, candid_carryOut plan _ _ _ hcarried⟩

/-- The run on the small tree is cut short when the file that was written cannot be read again. -/
theorem apply_cut_short_sample :
    sampleRun.Ground sampleTree [] ∧
      ∃ before : Disk, before.tree = sampleTree ∧
        (outcome (sampleRun.apply sampleSetting) before).1 =
          .error (.read "/.github/workflows/ci.yml" .busy) ∧
        ∃ plan written logged, CutShort sampleSetting sampleRun plan before
          (outcome (sampleRun.apply sampleSetting) before).2 written logged := by
  have hresult : (outcome (sampleRun.apply sampleSetting)
      { tree := sampleTree, troubles := List.replicate 9 none ++ [some .busy] }).1 =
        .error (.read "/.github/workflows/ci.yml" .busy) := by decide +kernel
  have hplanned : (outcome (Plan.ofRepository sampleRun.name sampleRun.root sampleRun.recipes)
      { tree := sampleTree, troubles := List.replicate 9 none ++ [some .busy] }).1.isOk := by
    decide +kernel
  refine ⟨ground_sample, _, rfl, hresult, ?_⟩
  rcases @apply_cut_short sampleSetting sampleRun
    { tree := sampleTree, troubles := List.replicate 9 none ++ [some .busy] } _ _ rfl rfl
    ground_sample (Prod.eta _).symm with
    ⟨fault, -, -, ⟨hplan, -⟩ | ⟨plan, _, written, logged, -, hcut⟩⟩ | ⟨plan, _, -, hverdict, -⟩
  · rw [hplan] at hplanned
    cases hplanned
  · exact ⟨plan, written, logged, hcut⟩
  · rw [hresult, verdict] at hverdict
    split at hverdict <;> cases hverdict

end WorkflowRecipes.Run
