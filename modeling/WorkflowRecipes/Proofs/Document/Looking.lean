import Mathlib.Data.List.Basic
import WorkflowRecipes.Document.Walk
import WorkflowRecipes.Proofs.Document.Entries

/-!
# Walks that only look

A walk for changing documents can be used for looking: at each part it adds notes to those that
there are, and leaves the part as it is. Then the document comes out as it went in, and the notes
are those of the parts that are listed for looking, in the same order.

Results:
1. `Looks.bind`, `looks_note`: how looks are put together.
2. `looks_overJobs`, `looks_overSteps`: the walks over jobs and over steps.
-/

namespace WorkflowRecipes

section Looks

variable {ν α β : Type}

/-- Work with a list of notes that has this result and adds these notes to any that there are. -/
def Looks (work : StateM (List ν) α) (result : α) (notes : List ν) : Prop :=
  ∀ seen : List ν, Id.run (work.run seen) = (result, seen ++ notes)

/-- Add the notes on some entries, and leave them as they are. -/
def noting (f : Location → Entries → List ν) (location : Location) (entries : Entries) :
    StateM (List ν) Entries := do
  modify (· ++ f location entries)
  return entries

theorem looks_pure (a : α) : Looks (pure a : StateM (List ν) α) a [] :=
  fun seen => congrArg (a, ·) (List.append_nil seen).symm

theorem looks_noting (f : Location → Entries → List ν) (location : Location) (entries : Entries) :
    Looks (noting f location entries) entries (f location entries) :=
  fun _ => rfl

theorem Looks.bind {work : StateM (List ν) α} {a : α} {notes : List ν}
    {next : α → StateM (List ν) β} {b : β} {later : List ν} (h : Looks work a notes)
    (hnext : Looks (next a) b later) : Looks (work >>= next) b (notes ++ later) := by
  intro seen
  rw [StateT.run_bind, Id.run_bind, h seen, hnext, List.append_assoc]

theorem Looks.map {work : StateM (List ν) α} {a : α} {notes : List ν} (h : Looks work a notes)
    (f : α → β) : Looks (f <$> work) (f a) notes := by
  rw [map_eq_pure_bind, ← List.append_nil notes]
  exact h.bind (looks_pure _)

theorem Looks.cons {first : StateM (List ν) α} {a : α} {notes : List ν}
    {rest : StateM (List ν) (List α)} {as : List α} {later : List ν} (h : Looks first a notes)
    (hrest : Looks rest as later) :
    Looks (do let a ← first
              return a :: (← rest)) (a :: as) (notes ++ later) :=
  h.bind (hrest.map (a :: ·))

theorem Looks.entry {first : StateM (List ν) Value} {value : Value} {notes : List ν}
    {rest : StateM (List ν) Entries} {entries : Entries} {later : List ν}
    (h : Looks first value notes) (key : Value) (hrest : Looks rest entries later) :
    Looks (do let value ← first
              return (key, value) :: (← rest)) ((key, value) :: entries) (notes ++ later) :=
  h.bind (hrest.map ((key, value) :: ·))

end Looks

namespace Value

variable {ν : Type}

/-! ## Parts of a value -/

section Parts

theorem looks_overEntries {f : Entries → StateM (List ν) Entries} {notes : Entries → List ν}
    (h : ∀ entries, Looks (f entries) entries (notes entries)) :
    ∀ value : Value, Looks (overEntries f value) value (value.entries?.elim [] notes)
  | .mapping entries => (h entries).map Value.mapping
  | .tagged tag value => (looks_overEntries h value).map (Value.tagged tag)
  | .sequence _ | .string _ | .number _ | .bool _ | .null => looks_pure _

theorem looks_overKeyOfEntries {f : Value → StateM (List ν) Value} {notes : Value → List ν}
    (h : ∀ value, Looks (f value) value (notes value)) (name : String) (entries : Entries) :
    Looks (Entries.overKey name f entries) entries ((entries.get? name).elim [] notes) := by
  induction entries with
  | nil => exact looks_pure []
  | cons entry rest ih =>
    obtain ⟨key, value⟩ := entry
    rw [Entries.overKey]
    cases hkey : key.isKey name with
    | true =>
      rw [Entries.get?_cons_of_isKey hkey]
      exact (h value).map fun value => (key, value) :: rest
    | false =>
      rw [Entries.get?_cons_of_not_isKey hkey]
      exact ih.map ((key, value) :: ·)

theorem looks_overValues {f : String → Value → StateM (List ν) Value}
    {notes : String → Value → List ν} (h : ∀ name value, Looks (f name value) value (notes name value))
    (entries : Entries) :
    Looks (overValues f entries) entries (entries.flatMap fun e => notes e.1.keyText e.2) := by
  induction entries with
  | nil => exact looks_pure []
  | cons entry rest ih => exact (h _ entry.2).entry entry.1 ih

end Parts

/-! ## Jobs and steps -/

variable (f : Location → Entries → List ν)

/-- The notes on the jobs among some entries. -/
theorem flatMap_jobs (doc : Value) :
    (doc.jobs.flatMap fun job => f job.2.1 job.2.2) =
      doc.entries?.elim [] fun entries => (entries.get? "jobs").elim [] fun jobs =>
        jobs.entries?.elim [] fun jobs => jobs.flatMap fun e =>
          e.2.entries?.elim [] (f (jobsLocation.key e.1.keyText)) := by
  unfold Value.jobs get? entriesOf
  cases doc.entries? with
  | none => rfl
  | some entries =>
    rw [Option.bind_some, Option.elim_some]
    cases entries.get? "jobs" with
    | none => rfl
    | some jobs =>
      rw [Option.toList_some, List.flatMap_singleton, Option.elim_some]
      cases jobs.entries? with
      | none => rfl
      | some jobs =>
        rw [Option.getD_some, Option.elim_some]
        induction jobs with
        | nil => rfl
        | cons entry rest ih =>
          obtain ⟨key, job⟩ := entry
          rw [List.flatMap_cons, ← ih, List.filterMap_cons]
          cases hjob : job.entries? <;> simp only [hjob, Option.map_none, Option.map_some,
            Option.elim_none, Option.elim_some, List.nil_append, List.flatMap_cons]

theorem looks_overJobs (doc : Value) :
    Looks (overJobs (noting f) doc) doc (doc.jobs.flatMap fun job => f job.2.1 job.2.2) := by
  rw [flatMap_jobs]
  have hjob : ∀ name job, Looks (overEntries (noting f (jobsLocation.key name)) job) job
      (job.entries?.elim [] (f (jobsLocation.key name))) :=
    fun name job => looks_overEntries (looks_noting f (jobsLocation.key name)) job
  refine looks_overEntries (fun entries => looks_overKeyOfEntries ?_ "jobs" entries) doc
  exact looks_overEntries (looks_overValues hjob)

/-- What is noted on jobs, but for their names, the walk notes. -/
theorem exists_looks_overJobs (g : String × Location × Entries → List ν)
    (hg : ∀ name location job, g (name, location, job) = g ("", location, job)) :
    ∃ look, ∀ doc : Value, Looks (overJobs (noting look) doc) doc (doc.jobs.flatMap g) := by
  refine ⟨fun location job => g ("", location, job), fun doc => ?_⟩
  have hjobs : doc.jobs.flatMap g = doc.jobs.flatMap fun job => g ("", job.2.1, job.2.2) :=
    List.flatMap_congr fun job _ => hg job.1 job.2.1 job.2.2
  rw [hjobs]
  exact looks_overJobs _ doc

theorem looks_overMappings (location : Location) (items : List Value) :
    Looks (overMappings (noting f) location items) items
      ((mappingsAt location items).flatMap fun step => f step.1 step.2) := by
  unfold overMappings mappingsAt
  -- The walk counts the items from any position on.
  generalize 0 = i
  induction items generalizing i with
  | nil => exact looks_pure []
  | cons item rest ih =>
    rw [List.zipIdx_cons, List.filterMap_cons]
    cases item with
    | mapping entries =>
      exact ((looks_noting f (location.index i) entries).map Value.mapping).cons (ih (i + 1))
    | _ => exact (looks_pure _).cons (ih (i + 1))

mutual

theorem looks_overStepsAt (location : Location) : ∀ value : Value,
    Looks (overStepsAt (noting f) location value) value
      ((stepsAt location value).flatMap fun step => f step.1 step.2)
  | .mapping entries => (looks_overStepsOfEntries location entries).map Value.mapping
  | .sequence items => (looks_overStepsOfItems location 0 items).map Value.sequence
  | .tagged tag value => (looks_overStepsAt location value).map (Value.tagged tag)
  | .string _ | .number _ | .bool _ | .null => looks_pure _

theorem looks_overStepsOfEntries (location : Location) : ∀ entries : List (Value × Value),
    Looks (overStepsOfEntries (noting f) location entries) entries
      ((stepsOfEntries location entries).flatMap fun step => f step.1 step.2)
  | [] => looks_pure []
  | (key, value) :: rest => by
    have hrest := looks_overStepsOfEntries location rest
    have hvalue := looks_overStepsAt (location.key key.keyText) value
    rw [overStepsOfEntries, stepsOfEntries]
    dsimp only
    rw [List.flatMap_append]
    split
    · next hsteps =>
      cases value with
      | sequence items =>
        have hitems := looks_overMappings f (location.key key.keyText) items
        exact (hitems.map Value.sequence).entry key hrest
      | _ => cases hsteps.2
    · exact hvalue.entry key hrest

theorem looks_overStepsOfItems (location : Location) (i : Nat) : ∀ items : List Value,
    Looks (overStepsOfItems (noting f) location i items) items
      ((stepsOfItems location i items).flatMap fun step => f step.1 step.2)
  | [] => looks_pure []
  | item :: rest => by
    rw [stepsOfItems, List.flatMap_append]
    exact (looks_overStepsAt (location.index i) item).cons
      (looks_overStepsOfItems location (i + 1) rest)

end

theorem looks_overSteps (doc : Value) :
    Looks (overSteps (noting f) doc) doc (doc.steps.flatMap fun step => f step.1 step.2) :=
  looks_overStepsAt f Location.root doc

end Value

end WorkflowRecipes
