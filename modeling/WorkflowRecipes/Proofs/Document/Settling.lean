import WorkflowRecipes.Proofs.Document.Walks

/-!
# Changes that settle

A change settles if making it a second time has no effect. Walks through a document reach the same
parts a second time, so a walk settles if what it does to each part settles.

Results:
1. `settles_of_fixed`, `Settles.guard`: changes that settle.
2. `settles_overKeys`, `settles_overEntries`, `settles_overItems`, `settles_overIndexed`: changes of
   parts of a value.
3. `settles_overJobs`, `settles_overSteps`: changes of the jobs and of the steps.
-/

namespace WorkflowRecipes

namespace Editing

variable {α : Type}

/-- Making a change a second time has no effect. -/
def Settles (f : α → Editing α) : Prop := ∀ a, (f (f a).result).result = (f a).result

theorem settles_pure : Settles (pure : α → Editing α) := fun _ => rfl

/-- A change settles if what it makes is left alone by it. -/
theorem settles_of_fixed {f : α → Editing α} (done : α → Prop)
    (hdone : ∀ a, done a → (f a).result = a) (h : ∀ a, done (f a).result ∨ (f a).result = a) :
    Settles f := by
  intro a
  rcases h a with ha | ha
  · exact hdone _ ha
  · rw [ha, ha]

/-- A change under a condition settles if it preserves the condition. -/
theorem Settles.guard {f : α → Editing α} (h : Settles f) {guard : α → Bool}
    (hguard : ∀ a, guard (f a).result = guard a) :
    Settles fun a => if guard a then f a else pure a := by
  intro a
  cases ha : guard a with
  | true => simp only [ha, if_true, hguard, h a]
  | false => simp only [ha, Bool.false_eq_true, if_false, result_pure]

end Editing

open Editing

namespace Entries

theorem settles_overKey {f : Value → Editing Value} (h : Settles f) (name : String) :
    Settles (Entries.overKey name f) := by
  intro entries
  induction entries with
  | nil => rfl
  | cons entry rest ih =>
    obtain ⟨key, value⟩ := entry
    cases hkey : key.isKey name with
    | true => rw [overKey_cons_of_isKey hkey, overKey_cons_of_isKey hkey, h value]
    | false => rw [overKey_cons_of_not_isKey hkey, overKey_cons_of_not_isKey hkey, ih]

end Entries

namespace Value

/-! ## Parts of a value -/

theorem settles_overEntries {f : Entries → Editing Entries} (h : Settles f) :
    Settles (overEntries f)
  | .mapping entries => congrArg Value.mapping (h entries)
  | .tagged tag value => congrArg (Value.tagged tag) (settles_overEntries h value)
  | .sequence _ | .string _ | .number _ | .bool _ | .null => rfl

theorem settles_overItems {f : List Value → Editing (List Value)} (h : Settles f) :
    Settles (overItems f)
  | .sequence items => congrArg Value.sequence (h items)
  | .tagged tag value => congrArg (Value.tagged tag) (settles_overItems h value)
  | .mapping _ | .string _ | .number _ | .bool _ | .null => rfl

theorem settles_overKey {f : Value → Editing Value} (h : Settles f) (name : String) :
    Settles (overKey name f) :=
  settles_overEntries (Entries.settles_overKey h name)

theorem settles_overKeys {f : Value → Editing Value} (h : Settles f) (names : List String) :
    Settles (overKeys names f) := by
  induction names with
  | nil => exact h
  | cons name rest ih => exact settles_overKey ih name

theorem settles_overValues {f : String → Value → Editing Value} (h : ∀ name, Settles (f name)) :
    Settles (overValues f)
  | [] => rfl
  | (key, value) :: rest => by
    show (key, (f key.keyText (f key.keyText value).result).result) ::
      (overValues f (overValues f rest).result).result = _
    rw [h key.keyText value, settles_overValues h rest]
    rfl

theorem settles_overIndexed {f : Nat → Value → Editing Value} (h : ∀ i, Settles (f i)) (i : Nat) :
    Settles (overIndexed f i) := by
  intro items
  induction items generalizing i with
  | nil => rfl
  | cons item rest ih =>
    show (f i (f i item).result).result ::
      (overIndexed f (i + 1) (overIndexed f (i + 1) rest).result).result = _
    rw [h i item, ih (i + 1)]
    rfl

/-! ## Jobs and steps -/

section Walks

variable {f : Location → Entries → Editing Entries}

theorem settles_overJobs (h : ∀ location, Settles (f location)) : Settles (overJobs f) :=
  settles_overKey (settles_overEntries <| settles_overValues fun _ =>
    settles_overEntries (h _)) "jobs"

theorem settles_overMappings (h : ∀ location, Settles (f location)) (location : Location) :
    Settles (overMappings f location) := by
  refine settles_overIndexed (fun i item => ?_) 0
  cases item with
  | mapping entries => exact congrArg Value.mapping (h (location.index i) entries)
  | _ => rfl

mutual

theorem settles_overStepsAt (h : ∀ location, Settles (f location)) (location : Location) :
    Settles (overStepsAt f location)
  | .mapping entries => congrArg Value.mapping (settles_overStepsOfEntries h location entries)
  | .sequence items => congrArg Value.sequence (settles_overStepsOfItems h location 0 items)
  | .tagged tag value => congrArg (Value.tagged tag) (settles_overStepsAt h location value)
  | .string _ | .number _ | .bool _ | .null => rfl

theorem settles_overStepsOfEntries (h : ∀ location, Settles (f location)) (location : Location) :
    Settles (overStepsOfEntries f location)
  | [] => rfl
  | (key, value) :: rest => by
    have hrest := settles_overStepsOfEntries h location rest
    have hvalue := settles_overStepsAt h (location.key key.keyText) value
    by_cases hsteps : key.keyText = "steps" ∧ value.isSequence = true
    · cases value with
      | sequence items =>
        have hitems := settles_overMappings h (location.key key.keyText) items
        rw [overStepsOfEntries_cons_steps hsteps.1, overStepsOfEntries_cons_steps hsteps.1, hitems,
          hrest]
      | _ => cases hsteps.2
    · rw [overStepsOfEntries_cons_other hsteps]
      rw [← isSequence_overStepsAt (f := f) (location.key key.keyText) value] at hsteps
      rw [overStepsOfEntries_cons_other hsteps, hvalue, hrest]

theorem settles_overStepsOfItems (h : ∀ location, Settles (f location)) (location : Location)
    (i : Nat) : Settles (overStepsOfItems f location i)
  | [] => rfl
  | item :: rest => by
    have hitem := settles_overStepsAt h (location.index i) item
    have hrest := settles_overStepsOfItems h location (i + 1) rest
    show _ :: _ = _
    rw [hitem, hrest]
    rfl

end

theorem settles_overSteps (h : ∀ location, Settles (f location)) : Settles (overSteps f) :=
  settles_overStepsAt h Location.root

end Walks

end Value

end WorkflowRecipes
