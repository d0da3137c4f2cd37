import WorkflowRecipes.Proofs.Document.Sameness
import WorkflowRecipes.Proofs.Document.Walks

/-!
# The value at the end of a chain of keys

A change at the end of a chain of keys is found there again, and the rest of the document, with all
its strings, is what it was.

Results:
1. `WellFormed.of_lookup?`: what is found in a well-formed document is well-formed.
2. `lookup?_overKeys`, `overKeys_eq_pure`: what is found after a change, and changes that do nothing.
3. `exists_strings_overKeys`: the strings around a value stay when it is changed.
-/

namespace WorkflowRecipes

namespace Value

variable {value old : Value} {entries : Entries} {name : String} {names : List String}

/-! ## Looking -/

theorem lookup?_cons (value : Value) (name : String) (names : List String) :
    value.lookup? (name :: names) = (value.get? name).bind fun child => child.lookup? names :=
  rfl

theorem wellFormed_of_entries? : ∀ value : Value, value.WellFormed →
    value.entries? = some entries → (Value.mapping entries).WellFormed
  | .mapping _, hwf, h => Option.some.inj h ▸ hwf
  | .tagged _ value, hwf, h => wellFormed_of_entries? value hwf h
  | .sequence _, _, h | .string _, _, h | .number _, _, h | .bool _, _, h | .null, _, h => by cases h

theorem WellFormed.of_get? (hwf : value.WellFormed) (h : value.get? name = some old) :
    old.WellFormed := by
  obtain ⟨entries, hentries, hget⟩ := Option.bind_eq_some_iff.mp h
  have hinfix := (wellFormed_of_entries? value hwf hentries).2
  exact (wellFormedEntries_iff.mp hinfix _ (Entries.mem_of_get?_eq_some hget)).2

theorem WellFormed.of_lookup? (hwf : value.WellFormed) (h : value.lookup? names = some old) :
    old.WellFormed := by
  induction names generalizing value with
  | nil => exact Option.some.inj h ▸ hwf
  | cons name rest ih =>
    rw [lookup?_cons] at h
    obtain ⟨child, hchild, hrest⟩ := Option.bind_eq_some_iff.mp h
    exact ih (hwf.of_get? hchild) hrest

/-! ## Changing -/

section Change

variable {f : Value → Editing Value}

theorem get?_overKey (value : Value) :
    (overKey name f value).result.get? name = (value.get? name).map fun child => (f child).result := by
  rw [get?, overKey, entries?_overEntries, get?]
  cases value.entries? with
  | none => rfl
  | some entries => exact Entries.get?_overKey_self entries

theorem lookup?_overKeys (names : List String) (value : Value) :
    (overKeys names f value).result.lookup? names =
      (value.lookup? names).map fun child => (f child).result := by
  induction names generalizing value with
  | nil => rfl
  | cons name rest ih =>
    rw [overKeys, lookup?_cons, lookup?_cons, get?_overKey]
    cases value.get? name with
    | none => rfl
    | some child => exact ih child

/-- A change that leaves what it finds alone does nothing at all. -/
theorem overKeys_eq_pure (h : ∀ child, value.lookup? names = some child → f child = pure child) :
    overKeys names f value = pure value := by
  induction names generalizing value with
  | nil => exact h value rfl
  | cons name rest ih =>
    refine overEntries_eq_pure value fun entries hentries => ?_
    refine Entries.overKey_eq_pure fun child hget => ih fun last hlast => h last ?_
    rw [lookup?_cons, get?, hentries, Option.bind_some, hget]
    exact hlast

end Change

/-! ## Strings -/

theorem mem_stringsOfEntries {s : String} :
    s ∈ stringsOfEntries entries ↔ ∃ e ∈ entries, s ∈ e.1.strings ∨ s ∈ e.2.strings := by
  induction entries with
  | nil => simp [stringsOfEntries]
  | cons entry rest ih => simp [stringsOfEntries, ih, or_assoc]

theorem strings_of_entries? : ∀ value : Value, value.entries? = some entries →
    value.strings = stringsOfEntries entries
  | .mapping _, h => by
    cases h
    rfl
  | .tagged _ value, h => strings_of_entries? value h
  | .sequence _, h | .string _, h | .number _, h | .bool _, h | .null, h => by cases h

theorem strings_overEntries {f : Entries → Editing Entries} (h : value.entries? = some entries) :
    (overEntries f value).result.strings = stringsOfEntries (f entries).result :=
  strings_of_entries? _ (by rw [entries?_overEntries, h, Option.map_some])

theorem exists_stringsOfEntries_overKey (h : entries.get? name = some old) :
    ∃ before after, stringsOfEntries entries = before ++ old.strings ++ after ∧
      ∀ f : Value → Editing Value, stringsOfEntries (Entries.overKey name f entries).result =
        before ++ (f old).result.strings ++ after := by
  induction entries with
  | nil => cases h
  | cons entry rest ih =>
    obtain ⟨key, value⟩ := entry
    cases hkey : key.isKey name with
    | true =>
      rw [Entries.get?_cons_of_isKey hkey] at h
      cases h
      refine ⟨key.strings, stringsOfEntries rest, rfl, fun f => ?_⟩
      rw [Entries.overKey_cons_of_isKey hkey, stringsOfEntries]
    | false =>
      rw [Entries.get?_cons_of_not_isKey hkey] at h
      obtain ⟨before, after, hold, hnew⟩ := ih h
      refine ⟨key.strings ++ value.strings ++ before, after, ?_, fun f => ?_⟩
      · rw [stringsOfEntries, hold]
        simp only [List.append_assoc]
      · rw [Entries.overKey_cons_of_not_isKey hkey, stringsOfEntries, hnew f]
        simp only [List.append_assoc]

/-- The strings of a document are those of the value at the end of a chain of keys and those around
it, and the latter stay whatever the value is changed to. -/
theorem exists_strings_overKeys (h : value.lookup? names = some old) :
    ∃ before after, value.strings = before ++ old.strings ++ after ∧
      ∀ f : Value → Editing Value, (overKeys names f value).result.strings =
        before ++ (f old).result.strings ++ after := by
  induction names generalizing value with
  | nil =>
    cases h
    exact ⟨[], [], (List.append_nil _).symm, fun f => (List.append_nil _).symm⟩
  | cons name rest ih =>
    rw [lookup?_cons] at h
    obtain ⟨child, hchild, hrest⟩ := Option.bind_eq_some_iff.mp h
    obtain ⟨entries, hentries, hget⟩ := Option.bind_eq_some_iff.mp hchild
    obtain ⟨outerBefore, outerAfter, houter, houterNew⟩ := exists_stringsOfEntries_overKey hget
    obtain ⟨before, after, hinner, hinnerNew⟩ := ih hrest
    refine ⟨outerBefore ++ before, after ++ outerAfter, ?_, fun f => ?_⟩
    · rw [strings_of_entries? value hentries, houter, hinner]
      simp only [List.append_assoc]
    · rw [overKeys, overKey, strings_overEntries hentries, houterNew, hinnerNew]
      simp only [List.append_assoc]

end Value

end WorkflowRecipes
