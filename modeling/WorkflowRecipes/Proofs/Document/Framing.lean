import WorkflowRecipes.Proofs.Document.Reaching
import WorkflowRecipes.Proofs.Document.Stepwise

/-!
# What stands around steps and jobs

A document with its steps emptied is what stands around the steps; with its jobs emptied, what
stands around the jobs. A walk over them leaves that as it is, and the steps or jobs after the walk
are those before it, each changed by itself, in the same places and in the same order.

Results:
1. `aroundSteps_overSteps`, `steps_overSteps`: what a walk over steps makes of a document.
2. `aroundJobs_overJobs`, `jobs_overJobs`: what a walk over jobs makes of it.
-/

namespace WorkflowRecipes.Value

variable {f g : Location → Entries → Editing Entries}

/-! ## Steps -/

/-- A document with its steps emptied. -/
def aroundSteps (doc : Value) : Value :=
  (doc.overSteps fun _ _ => (pure [] : Editing Entries)).result

theorem aroundSteps_overSteps (f : Location → Entries → Editing Entries) (doc : Value) :
    (overSteps f doc).result.aroundSteps = doc.aroundSteps :=
  congrArg Editing.result (overSteps_overSteps _ f doc)

/-- What a change makes of a step or job at a location. -/
def changedBy (f : Location → Entries → Editing Entries) (part : Location × Entries) :
    Location × Entries :=
  (part.1, (f part.1 part.2).result)

theorem mappingsAt_overMappings (f : Location → Entries → Editing Entries) (location : Location)
    (items : List Value) : mappingsAt location (overMappings f location items).result =
      (mappingsAt location items).map (changedBy f) := by
  unfold overMappings mappingsAt
  -- The walk counts the items from any position on.
  generalize 0 = i
  induction items generalizing i with
  | nil => rfl
  | cons item rest ih =>
    rw [overIndexed, Editing.result_bind, Editing.result_bind, Editing.result_pure,
      List.zipIdx_cons, List.zipIdx_cons, List.filterMap_cons, List.filterMap_cons, ih (i + 1)]
    cases item <;> rfl

mutual

theorem stepsAt_overStepsAt (f : Location → Entries → Editing Entries) (location : Location) :
    ∀ value : Value, stepsAt location (overStepsAt f location value).result =
      (stepsAt location value).map (changedBy f)
  | .mapping entries => stepsOfEntries_overStepsOfEntries f location entries
  | .sequence items => stepsOfItems_overStepsOfItems f location 0 items
  | .tagged _ value => stepsAt_overStepsAt f location value
  | .string _ | .number _ | .bool _ | .null => rfl

theorem stepsOfEntries_overStepsOfEntries (f : Location → Entries → Editing Entries)
    (location : Location) : ∀ entries : List (Value × Value),
      stepsOfEntries location (overStepsOfEntries f location entries).result =
        (stepsOfEntries location entries).map (changedBy f)
  | [] => rfl
  | (key, value) :: rest => by
    have hrest := stepsOfEntries_overStepsOfEntries f location rest
    have hvalue := stepsAt_overStepsAt f (location.key key.keyText) value
    by_cases hsteps : key.keyText = "steps" ∧ value.isSequence = true
    · cases value with
      | sequence items =>
        have hitems := mappingsAt_overMappings f (location.key key.keyText) items
        rw [overStepsOfEntries_cons_steps hsteps.1, stepsOfEntries, stepsOfEntries,
          if_pos ⟨hsteps.1, rfl⟩, if_pos hsteps, List.map_append, hrest]
        exact congrArg (· ++ _) hitems
      | _ => cases hsteps.2
    · rw [overStepsOfEntries_cons_other hsteps, stepsOfEntries, stepsOfEntries, if_neg hsteps]
      rw [← isSequence_overStepsAt (f := f) (location.key key.keyText) value] at hsteps
      rw [if_neg hsteps, List.map_append, hrest, hvalue]

theorem stepsOfItems_overStepsOfItems (f : Location → Entries → Editing Entries)
    (location : Location) (i : Nat) : ∀ items : List Value,
      stepsOfItems location i (overStepsOfItems f location i items).result =
        (stepsOfItems location i items).map (changedBy f)
  | [] => rfl
  | item :: rest => by
    have hitem := stepsAt_overStepsAt f (location.index i) item
    have hrest := stepsOfItems_overStepsOfItems f location (i + 1) rest
    rw [stepsOfItems, List.map_append, ← hitem, ← hrest]
    rfl

end

theorem steps_overSteps (f : Location → Entries → Editing Entries) (doc : Value) :
    (overSteps f doc).result.steps = doc.steps.map (changedBy f) :=
  stepsAt_overStepsAt f Location.root doc

/-! ## Changes one after another -/

theorem result_overKeyOfEntries_overKey (f g : Value → Editing Value) (name : String)
    (entries : Entries) : (Entries.overKey name f (Entries.overKey name g entries).result).result =
      (Entries.overKey name (fun value => f (g value).result) entries).result := by
  induction entries with
  | nil => rfl
  | cons entry rest ih =>
    obtain ⟨key, value⟩ := entry
    cases hkey : key.isKey name with
    | true =>
      rw [Entries.overKey_cons_of_isKey hkey, Entries.overKey_cons_of_isKey hkey,
        Entries.overKey_cons_of_isKey hkey]
    | false =>
      rw [Entries.overKey_cons_of_not_isKey hkey, Entries.overKey_cons_of_not_isKey hkey,
        Entries.overKey_cons_of_not_isKey hkey, ih]

theorem result_overEntries_overEntries {f g both : Entries → Editing Entries}
    (h : ∀ entries, (f (g entries).result).result = (both entries).result) : ∀ value : Value,
      (overEntries f (overEntries g value).result).result = (overEntries both value).result
  | .mapping entries => congrArg Value.mapping (h entries)
  | .tagged tag value => congrArg (Value.tagged tag) (result_overEntries_overEntries h value)
  | .sequence _ | .string _ | .number _ | .bool _ | .null => rfl

theorem result_overKey_overKey {f g both : Value → Editing Value}
    (h : ∀ value, (f (g value).result).result = (both value).result) (name : String)
    (value : Value) : (overKey name f (overKey name g value).result).result =
      (overKey name both value).result := by
  refine result_overEntries_overEntries (fun entries => ?_) value
  rw [result_overKeyOfEntries_overKey]
  exact Entries.result_overKey_congr fun value _ => h value

theorem result_overValues_overValues {f g both : String → Value → Editing Value}
    (h : ∀ name value, (f name (g name value).result).result = (both name value).result)
    (entries : Entries) :
    (overValues f (overValues g entries).result).result = (overValues both entries).result := by
  induction entries with
  | nil => rfl
  | cons entry rest ih =>
    exact congrArg₂ (fun value rest => (entry.1, value) :: rest) (h entry.1.keyText entry.2) ih

/-! ## Jobs -/

/-- A document with its jobs emptied. -/
def aroundJobs (doc : Value) : Value :=
  (doc.overJobs fun _ _ => (pure [] : Editing Entries)).result

theorem result_overJobs_overJobs (f g : Location → Entries → Editing Entries) (doc : Value) :
    (overJobs f (overJobs g doc).result).result = (overJobs (onChanged f g) doc).result := by
  refine result_overKey_overKey (fun jobs => ?_) "jobs" doc
  refine result_overEntries_overEntries (fun entries => ?_) jobs
  refine result_overValues_overValues (fun name job => ?_) entries
  exact result_overEntries_overEntries (fun _ => rfl) job

theorem aroundJobs_overJobs (f : Location → Entries → Editing Entries) (doc : Value) :
    (overJobs f doc).result.aroundJobs = doc.aroundJobs :=
  result_overJobs_overJobs _ f doc

/-- The jobs among the entries of a mapping. -/
theorem filterMap_overValues (f : Location → Entries → Editing Entries) (entries : Entries) :
    (overValues (fun name job =>
        overEntries (f (jobsLocation.key name)) job) entries).result.filterMap (fun e =>
      e.2.entries?.map fun job => (e.1.keyText, jobsLocation.key e.1.keyText, job)) =
    (entries.filterMap fun e =>
      e.2.entries?.map fun job => (e.1.keyText, jobsLocation.key e.1.keyText, job)).map
        fun job => (job.1, changedBy f job.2) := by
  induction entries with
  | nil => rfl
  | cons entry rest ih =>
    obtain ⟨key, job⟩ := entry
    rw [overValues, Editing.result_bind, Editing.result_bind, Editing.result_pure,
      List.filterMap_cons, List.filterMap_cons, ih, entries?_overEntries]
    cases job.entries? <;> rfl

theorem jobs_overJobs (f : Location → Entries → Editing Entries) (doc : Value) :
    (overJobs f doc).result.jobs = doc.jobs.map fun job => (job.1, changedBy f job.2) := by
  rw [Value.jobs, overJobs, get?_overKey, Value.jobs]
  cases doc.get? "jobs" with
  | none => rfl
  | some jobs =>
    rw [Option.map_some, Option.toList_some, Option.toList_some, List.flatMap_singleton,
      List.flatMap_singleton, entriesOf, entriesOf, entries?_overEntries]
    cases jobs.entries? with
    | none => rfl
    | some entries => exact filterMap_overValues f entries

end WorkflowRecipes.Value
