import WorkflowRecipes.Document.Walk
import WorkflowRecipes.Proofs.Document.Entries

/-!
# What walks make of a document

Equations for the walks that carry edits: what the result looks like, and when nothing is done at
all.

Results:
1. `edits_overKey`, `result_overKey_congr`: what a change under a key does.
2. `entries?_overEntries`, `run_overEntries`: the entries after a change of the entries.
3. `overEntries_eq_pure`, `overItems_eq_pure`, `overIndexed_eq_pure`: changes that do nothing.
4. `overStepsOfEntries_cons_steps`, `overStepsOfEntries_cons_other`: the two cases of an entry.
-/

namespace WorkflowRecipes

namespace Entries

/-- A change that leaves the value under a key alone, if there is one, does nothing at all. -/
theorem overKey_eq_pure {f : Value → Editing Value} {name : String} {entries : Entries}
    (h : ∀ value, entries.get? name = some value → f value = pure value) :
    overKey name f entries = pure entries := by
  induction entries with
  | nil => rfl
  | cons entry rest ih =>
    obtain ⟨key, other⟩ := entry
    rw [overKey]
    cases hkey : key.isKey name with
    | true =>
      rw [if_pos rfl, h other (get?_cons_of_isKey hkey)]
      rfl
    | false =>
      rw [if_neg Bool.false_ne_true, ih fun value hvalue => h value (by
        rw [get?_cons_of_not_isKey hkey, hvalue])]
      rfl

/-- The edits of a change under a key are those of the value there, if there is one. -/
theorem edits_overKey (f : Value → Editing Value) (name : String) (entries : Entries) :
    (overKey name f entries).edits = (entries.get? name).elim [] fun value => (f value).edits := by
  induction entries with
  | nil => rfl
  | cons entry rest ih =>
    obtain ⟨key, value⟩ := entry
    rw [overKey]
    cases hkey : key.isKey name with
    | true =>
      rw [if_pos rfl, get?_cons_of_isKey hkey]
      exact List.append_nil _
    | false =>
      rw [if_neg Bool.false_ne_true, get?_cons_of_not_isKey hkey, ← ih]
      exact List.append_nil _

/-- What comes out of a change under a key depends on what is made of the value there only. -/
theorem result_overKey_congr {f g : Value → Editing Value} {name : String} {entries : Entries}
    (h : ∀ value, entries.get? name = some value → (f value).result = (g value).result) :
    (overKey name f entries).result = (overKey name g entries).result := by
  induction entries with
  | nil => rfl
  | cons entry rest ih =>
    obtain ⟨key, other⟩ := entry
    rw [overKey, overKey]
    cases hkey : key.isKey name with
    | true =>
      rw [if_pos rfl, if_pos rfl]
      exact congrArg (fun value => (key, value) :: rest) (h other (get?_cons_of_isKey hkey))
    | false =>
      rw [if_neg Bool.false_ne_true, if_neg Bool.false_ne_true]
      exact congrArg ((key, other) :: ·) (ih fun value hvalue => h value (by
        rw [get?_cons_of_not_isKey hkey, hvalue]))

end Entries

namespace Value

theorem edits_overKey (f : Value → Editing Value) (name : String) : ∀ value : Value,
    (overKey name f value).edits = (value.get? name).elim [] fun inner => (f inner).edits
  | .mapping entries => (List.append_nil _).trans (Entries.edits_overKey f name entries)
  | .tagged _ value => (List.append_nil _).trans (edits_overKey f name value)
  | .sequence _ | .string _ | .number _ | .bool _ | .null => rfl

theorem result_overKey_congr {f g : Value → Editing Value} {name : String} : ∀ value : Value,
    (∀ inner, value.get? name = some inner → (f inner).result = (g inner).result) →
      (overKey name f value).result = (overKey name g value).result
  | .mapping _, h => congrArg Value.mapping (Entries.result_overKey_congr h)
  | .tagged tag value, h => congrArg (Value.tagged tag) (result_overKey_congr value h)
  | .sequence _, _ | .string _, _ | .number _, _ | .bool _, _ | .null, _ => rfl

theorem overEntries_tagged (f : Entries → Editing Entries) (tag : String) (value : Value) :
    (overEntries f (.tagged tag value)).result = .tagged tag (overEntries f value).result := rfl

theorem entries?_tagged (tag : String) (value : Value) :
    (Value.tagged tag value).entries? = value.entries? := rfl

/-- The entries after a change of the entries. -/
theorem entries?_overEntries (f : Entries → Editing Entries) :
    ∀ value : Value, (overEntries f value).result.entries? =
      value.entries?.map fun entries => (f entries).result
  | .mapping _ => rfl
  | .tagged tag value => by
    rw [overEntries_tagged, entries?_tagged, entries?_tagged, entries?_overEntries f value]
  | .sequence _ | .string _ | .number _ | .bool _ | .null => rfl

/-- A change of the entries without edits. -/
theorem run_overEntries (g : Entries → Entries) : ∀ value : Value,
    Id.run (value.overEntries fun entries => pure (g entries)) =
      (value.overEntries fun entries => (pure (g entries) : Editing Entries)).result
  | .tagged tag value => congrArg (Value.tagged tag) (run_overEntries g value)
  | .mapping _ | .sequence _ | .string _ | .number _ | .bool _ | .null => rfl

/-- A change that leaves the entries alone does nothing at all. -/
theorem overEntries_eq_pure {f : Entries → Editing Entries} :
    ∀ value : Value, (∀ entries, value.entries? = some entries → f entries = pure entries) →
      overEntries f value = pure value
  | .mapping entries, h => by
    show (f entries >>= fun entries => pure (Value.mapping entries)) = _
    rw [h entries rfl]
    rfl
  | .tagged tag value, h => by
    show (overEntries f value >>= fun value => pure (Value.tagged tag value)) = _
    rw [overEntries_eq_pure value h]
    rfl
  | .sequence _, _ | .string _, _ | .number _, _ | .bool _, _ | .null, _ => rfl

/-- A change that leaves all items alone does nothing at all. -/
theorem overItems_eq_pure {f : List Value → Editing (List Value)}
    (h : ∀ items, f items = pure items) : ∀ value : Value, overItems f value = pure value
  | .sequence items => by
    show (f items >>= fun items => pure (Value.sequence items)) = _
    rw [h items]
    rfl
  | .tagged tag value => by
    show (overItems f value >>= fun value => pure (Value.tagged tag value)) = _
    rw [overItems_eq_pure h value]
    rfl
  | .mapping _ | .string _ | .number _ | .bool _ | .null => rfl

theorem overIndexed_eq_pure {f : Nat → Value → Editing Value} {items : List Value}
    (h : ∀ i, ∀ item ∈ items, f i item = pure item) (i : Nat) :
    overIndexed f i items = pure items := by
  induction items generalizing i with
  | nil => rfl
  | cons item rest ih =>
    rw [overIndexed, h i item List.mem_cons_self,
      ih (fun j other hother => h j other (List.mem_cons_of_mem _ hother)) (i + 1)]
    rfl

/-- Items after a change are items that were changed. -/
theorem mem_overIndexed {f : Nat → Value → Editing Value} {items : List Value} {i : Nat}
    {item : Value} (h : item ∈ (overIndexed f i items).result) :
    ∃ j, ∃ old ∈ items, item = (f j old).result := by
  induction items generalizing i with
  | nil => cases h
  | cons first rest ih =>
    rcases List.mem_cons.mp h with rfl | h
    · exact ⟨i, first, List.mem_cons_self, rfl⟩
    · obtain ⟨j, old, hold, rfl⟩ := ih h
      exact ⟨j, old, List.mem_cons_of_mem _ hold, rfl⟩

section Steps

variable {f : Location → Entries → Editing Entries}

theorem isSequence_overStepsAt (location : Location) (value : Value) :
    (overStepsAt f location value).result.isSequence = value.isSequence := by
  cases value <;> rfl

/-- A sequence under the key `steps` has its mappings changed. -/
theorem overStepsOfEntries_cons_steps {key : Value} (hkey : key.keyText = "steps")
    (location : Location) (items : List Value) (rest : Entries) :
    (overStepsOfEntries f location ((key, .sequence items) :: rest)).result =
      (key, .sequence (overMappings f (location.key key.keyText) items).result) ::
        (overStepsOfEntries f location rest).result := by
  rw [overStepsOfEntries, if_pos ⟨hkey, rfl⟩]
  rfl

theorem overStepsOfEntries_cons_other {key value : Value}
    (h : ¬(key.keyText = "steps" ∧ value.isSequence = true)) (location : Location)
    (rest : Entries) :
    (overStepsOfEntries f location ((key, value) :: rest)).result =
      (key, (overStepsAt f (location.key key.keyText) value).result) ::
        (overStepsOfEntries f location rest).result := by
  rw [overStepsOfEntries, if_neg h]
  rfl

end Steps

end Value

end WorkflowRecipes
