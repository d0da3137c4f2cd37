import Mathlib.Data.List.Flatten
import WorkflowRecipes.Proofs.Document.Walks

/-!
# Changes step by step

A walk over the steps of a document does to each of them what it is told to do, and nothing else.
So what two walks do can be compared step by step.

Results:
1. `overSteps_overSteps`: a walk over steps that were changed.
2. `edits_overSteps`, `edits_eq_of_sublist`: the edits of a walk are those of the steps, in order.
3. `result_overSteps_eq_iff`: two walks make the same of a document if and only if they make the
   same of each of its steps.
-/

namespace WorkflowRecipes

namespace Editing

variable {α β : Type}

@[simp] theorem result_map (f : α → β) (x : Editing α) : (f <$> x).result = f x.result := rfl

@[simp] theorem edits_map (f : α → β) (x : Editing α) : (f <$> x).edits = x.edits :=
  List.append_nil x.edits

end Editing

namespace Value

variable {f g : Location → Entries → Editing Entries}

/-- What a second walk makes of a step that was changed by a first one. -/
def onChanged (f g : Location → Entries → Editing Entries) (location : Location)
    (step : Entries) : Editing Entries :=
  f location (g location step).result

/-! ## Walks one after another -/

theorem overIndexed_overIndexed {f g both : Nat → Value → Editing Value}
    (h : ∀ i item, f i (g i item).result = both i item) (i : Nat) (items : List Value) :
    overIndexed f i (overIndexed g i items).result = overIndexed both i items := by
  induction items generalizing i with
  | nil => rfl
  | cons item rest ih =>
    show (do let item ← f i (g i item).result
             return item :: (← overIndexed f (i + 1) (overIndexed g (i + 1) rest).result)) = _
    rw [h, ih, overIndexed]

theorem overMappings_overMappings (f g : Location → Entries → Editing Entries)
    (location : Location) (items : List Value) :
    overMappings f location (overMappings g location items).result =
      overMappings (onChanged f g) location items := by
  refine overIndexed_overIndexed (fun i item => ?_) 0 items
  cases item <;> rfl

mutual

theorem overStepsAt_overStepsAt (f g : Location → Entries → Editing Entries) (location : Location) :
    ∀ value : Value, overStepsAt f location (overStepsAt g location value).result =
      overStepsAt (onChanged f g) location value
  | .mapping entries => congrArg (· >>= fun entries => pure (Value.mapping entries))
      (overStepsOfEntries_overStepsOfEntries f g location entries)
  | .sequence items => congrArg (· >>= fun items => pure (Value.sequence items))
      (overStepsOfItems_overStepsOfItems f g location 0 items)
  | .tagged tag value => congrArg (· >>= fun value => pure (Value.tagged tag value))
      (overStepsAt_overStepsAt f g location value)
  | .string _ | .number _ | .bool _ | .null => rfl

theorem overStepsOfEntries_overStepsOfEntries (f g : Location → Entries → Editing Entries)
    (location : Location) : ∀ entries : List (Value × Value),
      overStepsOfEntries f location (overStepsOfEntries g location entries).result =
        overStepsOfEntries (onChanged f g) location entries
  | [] => rfl
  | (key, value) :: rest => by
    have hrest := overStepsOfEntries_overStepsOfEntries f g location rest
    have hvalue := overStepsAt_overStepsAt f g (location.key key.keyText) value
    by_cases hsteps : key.keyText = "steps" ∧ value.isSequence = true
    · cases value with
      | sequence items =>
        have hitems : overMappings f (location.key key.keyText)
            (itemsOf (.sequence (overMappings g (location.key key.keyText) items).result)) =
              overMappings (onChanged f g) (location.key key.keyText) (itemsOf (.sequence items)) :=
          overMappings_overMappings f g (location.key key.keyText) items
        rw [overStepsOfEntries_cons_steps hsteps.1, overStepsOfEntries, overStepsOfEntries,
          if_pos ⟨hsteps.1, rfl⟩, if_pos ⟨hsteps.1, rfl⟩, hitems, hrest]
      | _ => cases hsteps.2
    · rw [overStepsOfEntries_cons_other hsteps, overStepsOfEntries, overStepsOfEntries,
        if_neg hsteps]
      rw [← isSequence_overStepsAt (f := g) (location.key key.keyText) value] at hsteps
      rw [if_neg hsteps, hvalue, hrest]

theorem overStepsOfItems_overStepsOfItems (f g : Location → Entries → Editing Entries)
    (location : Location) (i : Nat) : ∀ items : List Value,
      overStepsOfItems f location i (overStepsOfItems g location i items).result =
        overStepsOfItems (onChanged f g) location i items
  | [] => rfl
  | item :: rest => by
    have hitem := overStepsAt_overStepsAt f g (location.index i) item
    have hrest := overStepsOfItems_overStepsOfItems f g location (i + 1) rest
    show (do let item ← overStepsAt f (location.index i) (overStepsAt g (location.index i) item).result
             return item :: (← overStepsOfItems f location (i + 1)
               (overStepsOfItems g location (i + 1) rest).result)) = _
    rw [hitem, hrest, overStepsOfItems]

end

/-- A walk over steps that were changed by another one does to each of them both changes. -/
theorem overSteps_overSteps (f g : Location → Entries → Editing Entries) (doc : Value) :
    overSteps f (overSteps g doc).result = overSteps (onChanged f g) doc :=
  overStepsAt_overStepsAt f g Location.root doc

/-! ## Edits -/

theorem edits_overMappings (f : Location → Entries → Editing Entries) (location : Location)
    (items : List Value) : (overMappings f location items).edits =
      (mappingsAt location items).flatMap fun step => (f step.1 step.2).edits := by
  unfold overMappings mappingsAt
  -- The walk counts the items from any position on.
  generalize 0 = i
  induction items generalizing i with
  | nil => rfl
  | cons item rest ih =>
    rw [List.zipIdx_cons, List.filterMap_cons, overIndexed, Editing.edits_bind, Editing.edits_bind,
      ih (i + 1), Editing.edits_pure, List.append_nil]
    cases item with
    | mapping entries =>
      rw [Editing.edits_bind, Editing.edits_pure, List.append_nil]
      rfl
    | _ => rfl

mutual

theorem edits_overStepsAt (f : Location → Entries → Editing Entries) (location : Location) :
    ∀ value : Value, (overStepsAt f location value).edits =
      (stepsAt location value).flatMap fun step => (f step.1 step.2).edits
  | .mapping entries => (List.append_nil _).trans (edits_overStepsOfEntries f location entries)
  | .sequence items => (List.append_nil _).trans (edits_overStepsOfItems f location 0 items)
  | .tagged _ value => (List.append_nil _).trans (edits_overStepsAt f location value)
  | .string _ | .number _ | .bool _ | .null => rfl

theorem edits_overStepsOfEntries (f : Location → Entries → Editing Entries) (location : Location) :
    ∀ entries : List (Value × Value), (overStepsOfEntries f location entries).edits =
      (stepsOfEntries location entries).flatMap fun step => (f step.1 step.2).edits
  | [] => rfl
  | (key, value) :: rest => by
    have hrest := edits_overStepsOfEntries f location rest
    have hvalue := edits_overStepsAt f (location.key key.keyText) value
    have hitems := edits_overMappings f (location.key key.keyText) value.itemsOf
    rw [overStepsOfEntries, stepsOfEntries]
    dsimp only
    rw [List.flatMap_append, ← hrest]
    split
    · rw [← hitems]
      simp only [Editing.edits_bind, Editing.edits_map, Editing.edits_pure, List.append_nil]
    · rw [← hvalue]
      simp only [Editing.edits_bind, Editing.edits_pure, List.append_nil]

theorem edits_overStepsOfItems (f : Location → Entries → Editing Entries) (location : Location)
    (i : Nat) : ∀ items : List Value, (overStepsOfItems f location i items).edits =
      (stepsOfItems location i items).flatMap fun step => (f step.1 step.2).edits
  | [] => rfl
  | item :: rest => by
    have hitem := edits_overStepsAt f (location.index i) item
    have hrest := edits_overStepsOfItems f location (i + 1) rest
    rw [overStepsOfItems, stepsOfItems, List.flatMap_append, ← hitem, ← hrest]
    simp only [Editing.edits_bind, Editing.edits_pure, List.append_nil]

end

/-- The edits of a walk are those of the steps, in the order of the steps. -/
theorem edits_overSteps (f : Location → Entries → Editing Entries) (doc : Value) :
    (overSteps f doc).edits = doc.steps.flatMap fun step => (f step.1 step.2).edits :=
  edits_overStepsAt f Location.root doc

/-- Of two walks with the same edits, one that makes no more of them in any step makes the same in
each step. -/
theorem edits_eq_of_sublist {doc : Value}
    (h : ∀ step ∈ doc.steps, (f step.1 step.2).edits.Sublist (g step.1 step.2).edits)
    (heq : (overSteps f doc).edits = (overSteps g doc).edits) :
    ∀ step ∈ doc.steps, (f step.1 step.2).edits = (g step.1 step.2).edits := by
  rw [edits_overSteps, edits_overSteps] at heq
  generalize doc.steps = steps at h heq
  induction steps with
  | nil => exact List.forall_mem_nil _
  | cons step rest ih =>
    obtain ⟨hstep, hrest⟩ := List.forall_mem_cons.mp h
    rw [List.flatMap_cons, List.flatMap_cons] at heq
    have hhere := hstep.length_le
    have hlater := (List.Sublist.flatMap_right rest hrest).length_le
    have hlength := congrArg List.length heq
    rw [List.length_append, List.length_append] at hlength
    have hsame := hstep.eq_of_length (by omega)
    rw [hsame] at heq
    exact List.forall_mem_cons.mpr ⟨hsame, ih hrest (List.append_cancel_left heq)⟩

/-! ## Walks that do the same -/

/-- Two changes make the same of some steps. -/
def SameOn (f g : Location → Entries → Editing Entries) (steps : List (Location × Entries)) :
    Prop :=
  ∀ step ∈ steps, (f step.1 step.2).result = (g step.1 step.2).result

theorem sameOn_append {first second : List (Location × Entries)} :
    SameOn f g (first ++ second) ↔ SameOn f g first ∧ SameOn f g second :=
  List.forall_mem_append

theorem result_overMappings_eq_iff (location : Location) (items : List Value) :
    (overMappings f location items).result = (overMappings g location items).result ↔
      SameOn f g (mappingsAt location items) := by
  unfold overMappings mappingsAt
  generalize 0 = i
  induction items generalizing i with
  | nil => exact iff_of_true rfl (List.forall_mem_nil _)
  | cons item rest ih =>
    rw [List.zipIdx_cons, List.filterMap_cons, overIndexed, overIndexed]
    simp only [Editing.result_bind, Editing.result_pure, List.cons.injEq, ih (i + 1)]
    cases item with
    | mapping entries => simp [SameOn]
    | _ => simp

mutual

theorem result_overStepsAt_eq_iff (location : Location) : ∀ value : Value,
    (overStepsAt f location value).result = (overStepsAt g location value).result ↔
      SameOn f g (stepsAt location value)
  | .mapping entries => (Value.mapping.injEq _ _).to_iff.trans
      (result_overStepsOfEntries_eq_iff location entries)
  | .sequence items => (Value.sequence.injEq _ _).to_iff.trans
      (result_overStepsOfItems_eq_iff location 0 items)
  | .tagged _ value => by
    rw [stepsAt, ← result_overStepsAt_eq_iff location value]
    simp [overStepsAt]
  | .string _ | .number _ | .bool _ | .null => iff_of_true rfl (List.forall_mem_nil _)

theorem result_overStepsOfEntries_eq_iff (location : Location) : ∀ entries : List (Value × Value),
    (overStepsOfEntries f location entries).result =
      (overStepsOfEntries g location entries).result ↔
        SameOn f g (stepsOfEntries location entries)
  | [] => iff_of_true rfl (List.forall_mem_nil _)
  | (key, value) :: rest => by
    have hrest := result_overStepsOfEntries_eq_iff location rest
    have hvalue := result_overStepsAt_eq_iff (location.key key.keyText) value
    rw [stepsOfEntries, sameOn_append, ← hrest]
    by_cases hsteps : key.keyText = "steps" ∧ value.isSequence = true
    · cases value with
      | sequence items =>
        have hitems := result_overMappings_eq_iff (f := f) (g := g) (location.key key.keyText) items
        rw [overStepsOfEntries_cons_steps hsteps.1, overStepsOfEntries_cons_steps hsteps.1,
          if_pos hsteps]
        simp [itemsOf, items?, untagged, ← hitems]
      | _ => cases hsteps.2
    · rw [overStepsOfEntries_cons_other hsteps, overStepsOfEntries_cons_other hsteps,
        if_neg hsteps, ← hvalue]
      simp

theorem result_overStepsOfItems_eq_iff (location : Location) (i : Nat) : ∀ items : List Value,
    (overStepsOfItems f location i items).result = (overStepsOfItems g location i items).result ↔
      SameOn f g (stepsOfItems location i items)
  | [] => iff_of_true rfl (List.forall_mem_nil _)
  | item :: rest => by
    have hitem := result_overStepsAt_eq_iff (location.index i) item
    have hrest := result_overStepsOfItems_eq_iff location (i + 1) rest
    rw [stepsOfItems, sameOn_append, ← hitem, ← hrest]
    simp [overStepsOfItems]

end

/-- Two walks make the same of a document if and only if they make the same of each step. -/
theorem result_overSteps_eq_iff {doc : Value} :
    (overSteps f doc).result = (overSteps g doc).result ↔ SameOn f g doc.steps :=
  result_overStepsAt_eq_iff Location.root doc

end Value

end WorkflowRecipes
