import WorkflowRecipes.Proofs.Document.Walks

/-!
# Changes that are told

A change is told if it comes with an edit whenever it makes a difference: where no edit is noted,
everything is as it was. Told changes of parts make up a told change of the whole, so that a walk is
told if what it does to each part is.

Results:
1. `Told.bind`, `told_one`, `told_note_bind`: how told changes are put together.
2. `told_overKeys`, `told_overJobs`, `told_overSteps`, `told_overStrings`: walks.
-/

namespace WorkflowRecipes

namespace Editing

variable {α β : Type}

/-- A change is told: if no edit is noted, the result is what was there before. -/
def Told (change : Editing α) (old : α) : Prop := change.edits = [] → change.result = old

theorem told_pure (a : α) : (pure a : Editing α).Told a := fun _ => rfl

theorem told_one (location : Location) (detail : String) (new old : α) :
    (one location detail new).Told old := fun h => nomatch h

theorem told_note_bind (location : Location) (detail : String) (next : Unit → Editing α)
    (old : α) : (note location detail >>= next).Told old := fun h => nomatch h

/-- A change that goes on from a part is told if both steps are. -/
theorem Told.bind {part : Editing α} {a : α} {next : α → Editing β} {b : β} (h : part.Told a)
    (hnext : (next a).Told b) : (part >>= next).Told b := by
  intro hedits
  rw [edits_bind, List.append_eq_nil_iff] at hedits
  obtain ⟨hpart, hrest⟩ := hedits
  rw [h hpart] at hrest
  rw [result_bind, h hpart, hnext hrest]

theorem Told.map {part : Editing α} {a : α} (h : part.Told a) (f : α → β) :
    (f <$> part).Told (f a) :=
  h.bind (told_pure _)

/-- A list is changed item by item. -/
theorem Told.cons {first : Editing α} {a : α} {rest : Editing (List α)} {as : List α}
    (h : first.Told a) (hrest : rest.Told as) :
    (do let a ← first
        return a :: (← rest) : Editing (List α)).Told (a :: as) :=
  h.bind (hrest.bind (told_pure _))

/-- A mapping is changed entry by entry, each under its key. -/
theorem Told.entry {first : Editing Value} {value : Value} {rest : Editing Entries}
    {entries : Entries} (h : first.Told value) (key : Value) (hrest : rest.Told entries) :
    (do let value ← first
        return (key, value) :: (← rest) : Editing Entries).Told ((key, value) :: entries) :=
  h.bind (hrest.bind (told_pure _))

end Editing

open Editing

namespace Value

/-! ## Parts of a value -/

/-- What is done to the entries that a value has is told in the value. -/
theorem told_overEntriesOf {f : Entries → Editing Entries} : ∀ value : Value,
    (∀ entries, value.entries? = some entries → (f entries).Told entries) →
      (overEntries f value).Told value
  | .mapping entries, h => (h entries rfl).map Value.mapping
  | .tagged tag value, h => (told_overEntriesOf value h).map (Value.tagged tag)
  | .sequence _, _ | .string _, _ | .number _, _ | .bool _, _ | .null, _ => told_pure _

theorem told_overEntries {f : Entries → Editing Entries} (h : ∀ entries, (f entries).Told entries)
    (value : Value) : (overEntries f value).Told value :=
  told_overEntriesOf value fun entries _ => h entries

theorem told_overItems {f : List Value → Editing (List Value)}
    (h : ∀ items, (f items).Told items) : ∀ value : Value, (overItems f value).Told value
  | .sequence items => (h items).map Value.sequence
  | .tagged tag value => (told_overItems h value).map (Value.tagged tag)
  | .mapping _ | .string _ | .number _ | .bool _ | .null => told_pure _

theorem told_overKeyOfEntries {f : Value → Editing Value} {name : String} {entries : Entries}
    (h : ∀ value, entries.get? name = some value → (f value).Told value) :
    (Entries.overKey name f entries).Told entries := by
  induction entries with
  | nil => exact told_pure []
  | cons entry rest ih =>
    obtain ⟨key, value⟩ := entry
    rw [Entries.overKey]
    cases hkey : key.isKey name with
    | true => exact (h value (Entries.get?_cons_of_isKey hkey)).map fun value => (key, value) :: rest
    | false =>
      rw [Entries.get?_cons_of_not_isKey hkey] at h
      exact (ih h).map ((key, value) :: ·)

theorem told_overKey {f : Value → Editing Value} (h : ∀ value, (f value).Told value)
    (name : String) (value : Value) : (overKey name f value).Told value :=
  told_overEntries (fun _ => told_overKeyOfEntries fun value _ => h value) value

theorem told_overKeys {f : Value → Editing Value} (h : ∀ value, (f value).Told value)
    (names : List String) : ∀ value : Value, (overKeys names f value).Told value := by
  induction names with
  | nil => exact h
  | cons name rest ih => exact told_overKey ih name

theorem told_overValues {f : String → Value → Editing Value}
    (h : ∀ name value, (f name value).Told value) (entries : Entries) :
    (overValues f entries).Told entries := by
  induction entries with
  | nil => exact told_pure []
  | cons entry rest ih => exact (h _ entry.2).entry entry.1 ih

theorem told_overIndexed {f : Nat → Value → Editing Value}
    (h : ∀ i value, (f i value).Told value) (i : Nat) (items : List Value) :
    (overIndexed f i items).Told items := by
  induction items generalizing i with
  | nil => exact told_pure []
  | cons item rest ih => exact (h i item).cons (ih (i + 1))

/-! ## Jobs, steps and strings -/

section Steps

variable {f : Location → Entries → Editing Entries}

theorem told_overJobs (h : ∀ location entries, (f location entries).Told entries) (doc : Value) :
    (overJobs f doc).Told doc :=
  told_overKey (told_overEntries <| told_overValues fun _ => told_overEntries (h _)) "jobs" doc

theorem told_overMappings (h : ∀ location entries, (f location entries).Told entries)
    (location : Location) (items : List Value) : (overMappings f location items).Told items := by
  refine told_overIndexed (fun i item => ?_) 0 items
  cases item with
  | mapping entries => exact (h (location.index i) entries).map Value.mapping
  | _ => exact told_pure _

mutual

theorem told_overStepsAt (h : ∀ location entries, (f location entries).Told entries)
    (location : Location) : ∀ value : Value, (overStepsAt f location value).Told value
  | .mapping entries => (told_overStepsOfEntries h location entries).map Value.mapping
  | .sequence items => (told_overStepsOfItems h location 0 items).map Value.sequence
  | .tagged tag value => (told_overStepsAt h location value).map (Value.tagged tag)
  | .string _ | .number _ | .bool _ | .null => told_pure _

theorem told_overStepsOfEntries (h : ∀ location entries, (f location entries).Told entries)
    (location : Location) : ∀ entries : List (Value × Value),
      (overStepsOfEntries f location entries).Told entries
  | [] => told_pure []
  | (key, value) :: rest => by
    have hrest := told_overStepsOfEntries h location rest
    have hvalue := told_overStepsAt h (location.key key.keyText) value
    rw [overStepsOfEntries]
    split
    · next hsteps =>
      cases value with
      | sequence items =>
        have hitems := told_overMappings h (location.key key.keyText) items
        exact (hitems.map Value.sequence).entry key hrest
      | _ => cases hsteps.2
    · exact hvalue.entry key hrest

theorem told_overStepsOfItems (h : ∀ location entries, (f location entries).Told entries)
    (location : Location) (i : Nat) : ∀ items : List Value,
      (overStepsOfItems f location i items).Told items
  | [] => told_pure []
  | item :: rest =>
    (told_overStepsAt h (location.index i) item).cons
      (told_overStepsOfItems h location (i + 1) rest)

end

theorem told_overSteps (h : ∀ location entries, (f location entries).Told entries) (doc : Value) :
    (overSteps f doc).Told doc :=
  told_overStepsAt h Location.root doc

end Steps

section Strings

variable {f : Location → String → Editing String}

mutual

theorem told_overStringsAt (h : ∀ location text, (f location text).Told text)
    (location : Location) : ∀ value : Value, (overStringsAt f location value).Told value
  | .string text => (h location text).map Value.string
  | .mapping entries => (told_overStringsOfEntries h location entries).map Value.mapping
  | .sequence items => (told_overStringsOfItems h location 0 items).map Value.sequence
  | .tagged tag value => (told_overStringsAt h location value).map (Value.tagged tag)
  | .number _ | .bool _ | .null => told_pure _

theorem told_overStringsOfEntries (h : ∀ location text, (f location text).Told text)
    (location : Location) : ∀ entries : List (Value × Value),
      (overStringsOfEntries f location entries).Told entries
  | [] => told_pure []
  | (key, value) :: rest =>
    (told_overStringsAt h (location.key key.keyText) value).entry key
      (told_overStringsOfEntries h location rest)

theorem told_overStringsOfItems (h : ∀ location text, (f location text).Told text)
    (location : Location) (i : Nat) : ∀ items : List Value,
      (overStringsOfItems f location i items).Told items
  | [] => told_pure []
  | item :: rest =>
    (told_overStringsAt h (location.index i) item).cons
      (told_overStringsOfItems h location (i + 1) rest)

end

theorem told_overStrings (h : ∀ location text, (f location text).Told text) (doc : Value) :
    (overStrings f doc).Told doc :=
  told_overStringsAt h Location.root doc

end Strings

end Value

end WorkflowRecipes
