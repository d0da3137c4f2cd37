import WorkflowRecipes.Proofs.Amendment.SettledSteps
import WorkflowRecipes.Proofs.Document.Keeping
import WorkflowRecipes.Proofs.Text.Occurrences
import WorkflowRecipes.Proofs.Text.References

/-!
# Jobs that are moved to uv

A job that does not set up Python is left alone. In any other job only the steps change: those that
bring `pip` up to date are dropped if commands are to be converted, and each of the others is moved
by itself. A step that is dropped has the position it had before, all other edits have the position
that their step has afterwards.

Results:
1. `asUv?_eq_some_iff`: the commands that are converted.
2. `stepMoved_overEntries`: what becomes of a step.
3. `moves_moved`: what becomes of the steps of a job.
4. `visit_moves`: what becomes of a document.
-/

namespace WorkflowRecipes.MoveToUv

variable {options : MoveToUv} {location : Location} {steps : List Value} {step : Value}
  {entries : Entries} {old new : String}

/-! ## What is meant -/

/-- The text under `run` of a step is a command and nothing else. -/
def Runs (command : String) (step : Value) : Prop :=
  ∃ entries, step.entries? = some entries ∧ entries.text? "run" = some command

/-- A step sets up Python. -/
def SetsUp (step : Value) : Prop :=
  ∃ entries, step.entries? = some entries ∧ entries.NamesAction "actions/setup-python"

/-- What a command is converted into: the ways to install what a project needs, and a call of a
module on one line. -/
inductive Converts (options : MoveToUv) : String → String → Prop
  | install {command : String} :
      command ∈ ["pip install -r requirements.txt", "pip install .", "pip install -e ."] →
      Converts options command options.strategy.command
  | module {called : String} : called ≠ "" → '\n' ∉ called.toList →
      Converts options ("python -m " ++ called) ("uv run " ++ called)

/-- What becomes of a step at a place: one that sets up Python changes at most under `uses` and
`with`, any other one at most under `run`. -/
inductive StepMoved (options : MoveToUv) (place : Location) (step : Value) : Editing Value → Prop
  | setup {entries entries' : Entries} {uses : String} {told : List Edit} :
      step.entries? = some entries → entries.NamesAction "actions/setup-python" →
      entries.uses? = some uses → Entries.SameBut ["uses", "with"] entries entries' →
      entries'.get? "uses" = some (.string options.target) →
      (∀ edit ∈ told, edit.location = place.key "with") →
      StepMoved options place step
        ⟨step.withEntries entries', ⟨place.key "uses", arrow uses options.target⟩ :: told⟩
  | command {entries : Entries} {old new : String} : step.entries? = some entries →
      ¬ entries.NamesAction "actions/setup-python" → options.convertCommands = true →
      entries.text? "run" = some old → options.Converts old new →
      StepMoved options place step
        ⟨step.withEntries (entries.set "run" (.string new)), [⟨place.key "run", arrow old new⟩]⟩
  | other : ¬ SetsUp step →
      (options.convertCommands = true → ∀ old new, Runs old step → ¬ options.Converts old new) →
      StepMoved options place step (pure step)

/-- Steps from position `i` on, what becomes of them from position `j` on, and the edits for steps
that are dropped and for steps that are moved. -/
inductive Moves (options : MoveToUv) (location : Location) :
    Nat → Nat → List Value → List Value → List Edit → List Edit → Prop
  | nil {i j : Nat} : Moves options location i j [] [] [] []
  | drop {i j : Nat} {step : Value} {rest others : List Value} {dropped told : List Edit} :
      options.convertCommands = true → Runs "python -m pip install --upgrade pip" step →
      Moves options location (i + 1) j rest others dropped told →
      Moves options location i j (step :: rest) others
        (⟨location.index i, "removed pip self-upgrade step"⟩ :: dropped) told
  | keep {i j : Nat} {step : Value} {rest others : List Value} {dropped told : List Edit}
      {change : Editing Value} :
      ¬ (options.convertCommands = true ∧ Runs "python -m pip install --upgrade pip" step) →
      StepMoved options (location.index j) step change →
      Moves options location (i + 1) (j + 1) rest others dropped told →
      Moves options location i j (step :: rest) (change.result :: others) dropped
        (change.edits ++ told)

/-- What becomes of a job: nothing unless one of its steps sets up Python, and else only its steps
change. -/
inductive JobMoved (options : MoveToUv) (location : Location) (job : Entries) :
    Editing Entries → Prop
  | kept : (∀ slot steps, job.get? "steps" = some slot → slot.items? = some steps →
      ∀ step ∈ steps, ¬ SetsUp step) → JobMoved options location job (pure job)
  | moved {slot : Value} {steps others : List Value} {dropped told : List Edit} :
      job.get? "steps" = some slot → slot.items? = some steps → (∃ step ∈ steps, SetsUp step) →
      Moves options (location.key "steps") 0 0 steps others dropped told →
      JobMoved options location job ⟨job.set "steps" (slot.withItems others), dropped ++ told⟩

/-! ## Commands -/

theorem isUpgrade_iff :
    isUpgrade step = true ↔ Runs "python -m pip install --upgrade pip" step := by
  rw [isUpgrade, beq_iff_eq, Option.bind_eq_some_iff]
  exact Iff.rfl

theorem setsUpPython_iff : setsUpPython step = true ↔ SetsUp step := by
  rw [setsUpPython, Option.any_eq_true]
  exact exists_congr fun entries => and_congr_right fun _ => Entries.usesAction_iff (by decide)

/-- The call of a module does not install what a project needs. -/
theorem call_not_mem (called : String) : "python -m " ++ called ∉ installCommands := by
  have hdiffer : ∀ command ∈ installCommands, ¬ "python -m ".toList <+: command.toList := by decide
  intro h
  exact hdiffer _ h (by rw [String.toList_append]; exact List.prefix_append _ _)

theorem holds_newline_iff {text : String} : holds text "\n" = true ↔ '\n' ∈ text.toList :=
  holds_iff.trans (List.singleton_infix_iff '\n' text.toList)

theorem asUv?_eq_some_iff : options.asUv? old = some new ↔ options.Converts old new := by
  rw [asUv?]
  by_cases h : old ∈ installCommands
  · rw [if_pos (List.contains_iff_mem.mpr h), Option.some_inj]
    constructor
    · rintro rfl
      exact .install h
    · rintro (_ | _)
      · rfl
      · exact absurd h (call_not_mem _)
  · rw [if_neg (mt List.contains_iff_mem.mp h), Option.bind_eq_some_iff]
    constructor
    · rintro ⟨called, hcalled, hnew⟩
      obtain rfl := dropPrefix?_iff.mp hcalled
      split at hnew
      · cases hnew
      · next hcall =>
        rw [Bool.or_eq_true, beq_iff_eq, holds_newline_iff, not_or] at hcall
        exact Option.some.inj hnew ▸ .module hcall.1 hcall.2
    · rintro (hinstall | ⟨hcall, hline⟩)
      · exact absurd hinstall h
      · refine ⟨_, dropPrefix?_iff.mpr rfl, if_neg ?_⟩
        rw [Bool.or_eq_true, beq_iff_eq, holds_newline_iff, not_or]
        exact ⟨hcall, hline⟩

/-! ## One step -/

/-- The edits of the inputs are told for the inputs as a whole. -/
theorem location_of_mem_convertInputs {edit : Edit} {inputs : Entries}
    (h : edit ∈ (options.convertInputs location inputs).edits) : edit.location = location := by
  have hnoted : ∀ detail, edit ∈ (Editing.note location detail).edits → edit.location = location :=
    fun detail h => congrArg Edit.location (List.mem_singleton.mp h)
  unfold convertInputs at h
  dsimp only at h
  split at h
  · rw [Editing.edits_bind, List.mem_append] at h
    rcases h with h | h
    · exact hnoted _ h
    · split at h
      · exact hnoted _ h
      · cases h
  · split at h
    · exact hnoted _ h
    · cases h

theorem location_of_mem_overInputs {edit : Edit}
    (h : edit ∈ (entries.overKey "with"
      (Value.overEntries (options.convertInputs location))).edits) : edit.location = location := by
  rw [Entries.edits_overKey] at h
  cases hslot : entries.get? "with" with
  | none => rw [hslot] at h; cases h
  | some slot =>
    rw [hslot, Option.elim_some, Value.edits_overEntries] at h
    cases hinputs : slot.entries? with
    | none => rw [hinputs] at h; cases h
    | some inputs =>
      rw [hinputs, Option.elim_some] at h
      exact location_of_mem_convertInputs h

theorem overStep_of_command (hsetup : entries.usesAction setupPython = false)
    (hcommands : options.convertCommands = true) (hrun : entries.text? "run" = some old)
    (hnew : options.asUv? old = some new) (place : Location) :
    options.overStep place entries =
      .one (place.key "run") (arrow old new) (entries.set "run" (.string new)) := by
  rw [overStep, hsetup, if_neg Bool.false_ne_true, hrun]
  dsimp only
  rw [if_pos hcommands, hnew]

theorem overStep_of_other (hsetup : entries.usesAction setupPython = false)
    (h : options.convertCommands = true → ∀ old, entries.text? "run" = some old →
      options.asUv? old = none) (place : Location) :
    options.overStep place entries = pure entries := by
  rw [overStep, hsetup, if_neg Bool.false_ne_true]
  cases hrun : entries.text? "run" with
  | none => rfl
  | some old =>
    dsimp only
    cases hcommands : options.convertCommands with
    | true => rw [if_pos rfl, h hcommands old hrun]
    | false => rfl

theorem overStep_of_setup (hsetup : entries.usesAction setupPython = true)
    (huses : entries.uses? = some old) (place : Location) {converted : Editing Entries}
    (hconverted : (entries.set "uses" (.string options.target)).overKey "with"
      (Value.overEntries (options.convertInputs (place.key "with"))) = converted) :
    options.overStep place entries =
      ⟨converted.result, ⟨place.key "uses", arrow old options.target⟩ :: converted.edits⟩ := by
  rw [overStep, if_pos hsetup, huses, ← hconverted]
  rfl

theorem stepMoved_of_setup (hentries : step.entries? = some entries)
    (hnames : entries.NamesAction "actions/setup-python") (place : Location) :
    StepMoved options place step (step.overEntries (options.overStep place)) := by
  have hsetup : entries.usesAction setupPython = true :=
    (Entries.usesAction_iff (by decide)).mpr hnames
  have ⟨uses, huses, _⟩ := hnames
  obtain ⟨value, hvalue, -⟩ := Option.bind_eq_some_iff.mp huses
  have hkey : entries.hasKey "uses" = true := by rw [Entries.hasKey_eq, hvalue]; rfl
  rw [Value.overEntries_eq_map hentries, overStep_of_setup hsetup huses place rfl, Editing.map_eq]
  refine .setup hentries hnames huses ?_ ?_ fun edit hedit => location_of_mem_overInputs hedit
  · exact (Entries.sameBut_set (by decide) hkey _).trans (Entries.sameBut_overKey (by decide) _ _)
  · rw [Entries.get?_overKey_of_ne (by decide), Entries.get?_set_self]

/-- A step is moved by itself. -/
theorem stepMoved_overEntries (options : MoveToUv) (place : Location) (step : Value) :
    StepMoved options place step (step.overEntries (options.overStep place)) := by
  by_cases h : SetsUp step
  · obtain ⟨entries, hentries, hnames⟩ := h
    exact stepMoved_of_setup hentries hnames place
  by_cases hconverts : options.convertCommands = true ∧
      ∃ old new, Runs old step ∧ options.Converts old new
  · obtain ⟨hcommands, old, new, ⟨entries, hentries, hrun⟩, hnew⟩ := hconverts
    have hnot : ¬ entries.NamesAction "actions/setup-python" := fun hnames =>
      h ⟨entries, hentries, hnames⟩
    have hsetup : entries.usesAction setupPython = false :=
      Bool.eq_false_iff.mpr (mt (Entries.usesAction_iff (by decide)).mp hnot)
    rw [Value.overEntries_eq_map hentries,
      overStep_of_command hsetup hcommands hrun (asUv?_eq_some_iff.mpr hnew)]
    exact .command hentries hnot hcommands hrun hnew
  · have hnone : options.convertCommands = true → ∀ old new, Runs old step →
        ¬ options.Converts old new := fun hcommands old new hrun hnew =>
      hconverts ⟨hcommands, old, new, hrun, hnew⟩
    rw [Value.overEntries_eq_pure step fun entries hentries => ?_]
    · exact .other h hnone
    refine overStep_of_other (Bool.eq_false_iff.mpr fun hsetup => ?_) (fun hcommands old hrun => ?_)
      place
    · exact h ⟨entries, hentries, (Entries.usesAction_iff (by decide)).mp hsetup⟩
    · refine Option.eq_none_iff_forall_ne_some.mpr fun new hnew => ?_
      exact hnone hcommands old new ⟨entries, hentries, hrun⟩ (asUv?_eq_some_iff.mp hnew)

/-! ## All steps -/

/-- The steps from position `i` on that are not dropped. -/
def remaining (options : MoveToUv) (location : Location) (i : Nat) (steps : List Value) :
    Editing (List Value) :=
  if options.convertCommands then dropUpgrades location i steps else pure steps

/-- The steps from position `j` on, each of them moved. -/
def moved (options : MoveToUv) (location : Location) (j : Nat) (steps : List Value) :
    Editing (List Value) :=
  Value.overIndexed (fun j step => step.overEntries (options.overStep (location.index j))) j steps

theorem overJobSteps_of_setup (h : ∃ step ∈ steps, SetsUp step) :
    options.overJobSteps location steps =
      options.remaining location 0 steps >>= options.moved location 0 := by
  obtain ⟨step, hstep, hsetup⟩ := h
  rw [overJobSteps, if_pos (List.any_eq_true.mpr ⟨step, hstep, setsUpPython_iff.mpr hsetup⟩),
    remaining]
  cases options.convertCommands with
  | true => rfl
  | false => rfl

theorem overJobSteps_of_not_setup (h : ∀ step ∈ steps, ¬ SetsUp step) :
    options.overJobSteps location steps = pure steps := by
  refine if_neg fun hany => ?_
  obtain ⟨step, hstep, hsetup⟩ := List.any_eq_true.mp hany
  exact h step hstep (setsUpPython_iff.mp hsetup)

theorem remaining_cons_of_upgrade (hcommands : options.convertCommands = true)
    (h : isUpgrade step = true) (location : Location) (i : Nat) (rest : List Value) :
    options.remaining location i (step :: rest) =
      ⟨(options.remaining location (i + 1) rest).result,
        ⟨location.index i, "removed pip self-upgrade step"⟩ ::
          (options.remaining location (i + 1) rest).edits⟩ := by
  rw [remaining, if_pos hcommands, dropUpgrades, if_pos h, remaining, if_pos hcommands]
  rfl

theorem remaining_cons_of_not (h : ¬ (options.convertCommands = true ∧ isUpgrade step = true))
    (location : Location) (i : Nat) (rest : List Value) :
    options.remaining location i (step :: rest) =
      (step :: ·) <$> options.remaining location (i + 1) rest := by
  rw [remaining, remaining]
  cases hcommands : options.convertCommands with
  | true =>
    rw [if_pos rfl, if_pos rfl, dropUpgrades, if_neg fun hupgrade => h ⟨hcommands, hupgrade⟩]
    rfl
  | false => rfl

/-- Both positions move on for a step that remains, and only the old one for a step that is
dropped. -/
theorem moves_moved (options : MoveToUv) (location : Location) (i j : Nat) (steps : List Value) :
    Moves options location i j steps
      (options.moved location j (options.remaining location i steps).result).result
      (options.remaining location i steps).edits
      (options.moved location j (options.remaining location i steps).result).edits := by
  induction steps generalizing i j with
  | nil =>
    unfold remaining
    split <;> exact .nil
  | cons step rest ih =>
    by_cases h : options.convertCommands = true ∧ isUpgrade step = true
    · rw [remaining_cons_of_upgrade h.1 h.2]
      exact .drop h.1 (isUpgrade_iff.mp h.2) (ih (i + 1) j)
    · rw [remaining_cons_of_not h, Editing.result_map, Editing.edits_map, moved,
        Value.result_overIndexed_cons, Value.edits_overIndexed_cons]
      refine .keep ?_ (stepMoved_overEntries options (location.index j) step) (ih (i + 1) (j + 1))
      rwa [← isUpgrade_iff]

example : (overJobSteps {} Location.root
    [.mapping [(.string "run", .string "python -m pip install --upgrade pip")],
      .mapping [(.string "uses", .string "actions/setup-python@v5")]]).edits =
    [⟨Location.root.index 0, "removed pip self-upgrade step"⟩,
      ⟨(Location.root.index 0).key "uses",
        "actions/setup-python@v5 -> astral-sh/setup-uv@v6"⟩] := by
  decide

/-! ## Jobs and documents -/

theorem jobMoved_overKey (options : MoveToUv) (location : Location) (job : Entries) :
    JobMoved options location job
      (job.overKey "steps" (Value.overItems (options.overJobSteps (location.key "steps")))) := by
  by_cases h : ∀ slot steps, job.get? "steps" = some slot → slot.items? = some steps →
      ∀ step ∈ steps, ¬ SetsUp step
  · rw [Entries.overKey_eq_pure fun slot hslot =>
      Value.overItems_eq_pure_of_items? fun steps hsteps =>
        overJobSteps_of_not_setup (h slot steps hslot hsteps)]
    exact .kept h
  · push Not at h
    obtain ⟨slot, steps, hslot, hsteps, hsetup⟩ := h
    obtain ⟨before, after, rfl, hbefore⟩ := Entries.exists_split hslot
    rw [Entries.overKey_split hbefore, Value.overItems_eq_map hsteps, overJobSteps_of_setup hsetup,
      Editing.map_eq, Editing.map_eq]
    have hmoved := JobMoved.moved hslot hsteps hsetup
      (moves_moved options (location.key "steps") 0 0 steps)
    rw [Entries.set_split hbefore] at hmoved
    exact hmoved

/-- A job without a step that sets up Python is left alone. Of any other job only the steps change:
those that bring `pip` up to date are dropped, if commands are converted, and the others stay in
their order, each moved by itself. Nothing else in the document changes. -/
theorem visit_moves (options : MoveToUv) (doc : Value) :
    Value.ChangesJobs (JobMoved options) doc (options.visit doc) :=
  Value.changesJobs_overJobs (jobMoved_overKey options) doc

end WorkflowRecipes.MoveToUv
