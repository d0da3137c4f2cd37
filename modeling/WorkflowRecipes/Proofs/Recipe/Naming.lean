import WorkflowRecipes.Proofs.Document.Equality
import WorkflowRecipes.Proofs.Recipe.Keys

/-!
# The name that chooses a recipe

A name and texts make one mapping, in which the name comes first, under `recipe`. A text with that
key puts another name in its place, after the first one was looked up in the catalog.

Results:
1. `name_make`: the recipes of a kind have its name.
2. `get?_entriesOfTexts`: of several texts with one key the last counts.
3. `name_of_ofTexts`: which name the recipe of a name and texts has.
-/

namespace WorkflowRecipes

namespace Entries

variable {entries : Entries} {name : String}

theorem nodup_keys_set (h : (entries.map (·.1)).Nodup) (name : String) (value : Value) :
    ((entries.set name value).map (·.1)).Nodup := by
  induction entries with
  | nil => simp [set, insert]
  | cons entry rest ih =>
    obtain ⟨key, old⟩ := entry
    rw [List.map_cons, List.nodup_cons] at h
    cases hkey : key.isKey name with
    | true => rwa [set_cons_of_isKey hkey, List.map_cons, List.nodup_cons]
    | false =>
      rw [set_cons_of_not_isKey hkey, List.map_cons, List.nodup_cons]
      refine ⟨fun hmem => ?_, ih h.2⟩
      obtain ⟨e, he, rfl⟩ := List.mem_map.mp hmem
      rcases Recipe.mem_insert he with hnew | ⟨e', he', hsame⟩
      · rw [hnew, Value.isKey_string] at hkey
        cases hkey
      · exact h.1 (hsame ▸ List.mem_map_of_mem he')

/-- Where no key stands twice, an entry with a string key is the one that is found. -/
theorem get?_of_mem (h : (entries.map (·.1)).Nodup) {e : Value × Value} (he : e ∈ entries)
    (hkey : e.1.isKey name = true) : entries.get? name = some e.2 := by
  induction entries with
  | nil => exact absurd he List.not_mem_nil
  | cons entry rest ih =>
    rw [List.map_cons, List.nodup_cons] at h
    rcases List.mem_cons.mp he with rfl | he
    · exact get?_cons_of_isKey hkey
    · have hother : entry.1.isKey name = false := by
        rw [← Bool.not_eq_true]
        intro hentry
        refine h.1 (List.mem_map.mpr ⟨e, he, ?_⟩)
        rw [Value.isKey_iff.mp hkey, Value.isKey_iff.mp hentry]
      rw [get?_cons_of_not_isKey hother, ih h.2 he]

end Entries

/-! ## Kinds and their names -/

namespace RecipeKind

/-- Whatever options are given, the recipes of a kind have its name. -/
theorem name_make {kind : RecipeKind} (h : kind ∈ catalog) (given : GivenOptions) :
    (kind.make given).name = kind.name := by
  have hall : ∀ kind ∈ catalog, (kind.make given).name = kind.name := by
    unfold catalog
    repeat refine List.forall_mem_cons.mpr ⟨rfl, ?_⟩
    exact List.forall_mem_nil _
  exact hall kind h

/-- A value stands for a kind only by its name, tags looked through. -/
theorem ofValue_ok {value : Value} {kind : RecipeKind} (h : ofValue value = .ok kind) :
    kind ∈ catalog ∧ value.text? = some kind.name := by
  unfold ofValue at h
  split at h
  · next name hname =>
    unfold ofName find? at h
    split at h
    · next found hfound =>
      cases h
      have hsame : kind.name = name := by simpa using List.find?_some hfound
      refine ⟨List.mem_of_find?_eq_some hfound, ?_⟩
      rw [Value.text?, hname, hsame]
    · cases h
  · cases h

end RecipeKind

namespace Recipe

open RecipeKind

theorem name_of_ofOptions {kind : RecipeKind} (hkind : kind ∈ catalog) {options : Entries}
    {recipe : Recipe} (h : kind.ofOptions options = .ok recipe) : recipe.name = kind.name := by
  unfold ofOptions at h
  cases hread : OptionField.readEntries kind.fields [] options with
  | error error =>
    rw [hread] at h
    cases h
  | ok given =>
    rw [hread] at h
    cases h
    exact name_make hkind given

/-- A mapping in which no key stands twice makes a recipe of the name under `recipe`. -/
theorem name_of_ofEntries {entries : Entries} (hnodup : (entries.map (·.1)).Nodup)
    {recipe : Recipe} (h : ofEntries entries = .ok recipe) :
    (entries.get? nameKey).bind Value.text? = some recipe.name := by
  unfold ofEntries at h
  split at h
  · next kind options hsplit =>
    obtain ⟨hnone | ⟨e, he, hkey, hvalue⟩, -⟩ := (parts_of_split hsplit).spec
    · cases hnone
    · obtain ⟨hkind, htext⟩ := ofValue_ok hvalue
      rw [Entries.get?_of_mem hnodup he hkey, Option.bind_some, htext, name_of_ofOptions hkind h]
  · cases h

/-! ## Names among texts -/

/-- The values that texts give for a key, in order. -/
def valuesFor (name : String) (options : List String) : List Value :=
  options.filterMap fun text =>
    (cutAt? text '=').bind fun part =>
      if trimmed part.1 = name then some (optionValue part.2) else none

/-- Of several texts with one key the last counts, and it counts more than what was there. -/
theorem get?_entriesOfTexts {options : List String} {before entries : Entries}
    (h : entriesOfTexts before options = .ok entries) (name : String) :
    entries.get? name = (valuesFor name options).getLast?.or (before.get? name) := by
  induction options generalizing before with
  | nil =>
    cases h
    rfl
  | cons text rest ih =>
    rw [entriesOfTexts] at h
    split at h
    · cases h
    · next key value hcut =>
      rw [ih h]
      by_cases hkey : trimmed key = name
      · have hvalues : valuesFor name (text :: rest) = optionValue value :: valuesFor name rest := by
          simp [valuesFor, hcut, hkey]
        rw [hvalues, hkey, Entries.get?_set_self, List.getLast?_cons]
        cases (valuesFor name rest).getLast? <;> rfl
      · have hvalues : valuesFor name (text :: rest) = valuesFor name rest := by
          simp [valuesFor, hcut, hkey]
        rw [hvalues, Entries.get?_set_of_ne hkey]

theorem nodup_keys_entriesOfTexts {options : List String} {before entries : Entries}
    (hbefore : (before.map (·.1)).Nodup) (h : entriesOfTexts before options = .ok entries) :
    (entries.map (·.1)).Nodup := by
  induction options generalizing before with
  | nil =>
    cases h
    exact hbefore
  | cons text rest ih =>
    rw [entriesOfTexts] at h
    split at h
    · cases h
    · exact ih (Entries.nodup_keys_set hbefore _ _) h

/-- The recipe of a name and texts has the name that was looked up if no text has the key `recipe`;
else it has the name that the last such text gives. -/
theorem name_of_ofTexts {name : String} {options : List String} {recipe : Recipe}
    (h : ofTexts name options = .ok recipe) :
    ((∀ text ∈ options, ∀ key value, cutAt? text '=' = some (key, value) →
        trimmed key ≠ nameKey) → recipe.name = name) ∧
      ∀ value, (valuesFor nameKey options).getLast? = some value →
        value.text? = some recipe.name := by
  unfold ofTexts at h
  split at h
  · cases h
  split at h
  · cases h
  next entries hentries =>
  split at h
  · next found hfound =>
    cases h
    have hname := name_of_ofEntries
      (nodup_keys_entriesOfTexts (by simp) hentries) hfound
    rw [get?_entriesOfTexts hentries] at hname
    refine ⟨fun hfree => ?_, fun value hvalue => ?_⟩
    · have hnone : valuesFor nameKey options = [] := by
        refine List.filterMap_eq_nil_iff.mpr fun text htext => ?_
        cases hcut : cutAt? text '=' with
        | none => rfl
        | some part => exact if_neg (hfree text htext part.1 part.2 hcut)
      rw [hnone] at hname
      exact (Option.some.inj hname).symm
    · rw [hvalue] at hname
      exact hname
  · cases h

theorem ofTexts_of_toOption {name : String} {options : List String} {recipe : Recipe}
    (h : (ofTexts name options).toOption = some recipe) : ofTexts name options = .ok recipe := by
  cases hmade : ofTexts name options with
  | error error =>
    rw [hmade] at h
    cases h
  | ok made =>
    rw [hmade] at h
    exact congrArg Except.ok (Option.some.inj h)

/-- Without texts the name counts, and of two texts with the key `recipe` the second. -/
theorem name_of_ofTexts_manual :
    ofTexts "remove-all-cron-triggers" [] = .ok (.amendment .removeCron) ∧
      (Recipe.amendment .removeCron).name = "remove-all-cron-triggers" ∧
      ofTexts "remove-all-cron-triggers" ["recipe=x", " recipe =add-manual-trigger"] =
        .ok (.amendment .addManual) ∧
      (Value.string "add-manual-trigger").text? = some (Recipe.amendment .addManual).name := by
  have hplain : ofTexts "remove-all-cron-triggers" [] = .ok (.amendment .removeCron) :=
    ofTexts_of_toOption (by decide +kernel)
  have hnamed : ofTexts "remove-all-cron-triggers" ["recipe=x", " recipe =add-manual-trigger"] =
      .ok (.amendment .addManual) :=
    ofTexts_of_toOption (by decide +kernel)
  have hlast : (valuesFor nameKey ["recipe=x", " recipe =add-manual-trigger"]).getLast? =
      some (.string "add-manual-trigger") := by decide +kernel
  exact ⟨hplain, (name_of_ofTexts hplain).1 (by simp), hnamed, (name_of_ofTexts hnamed).2 _ hlast⟩

/-- A name that is in the catalog can be given up for another one. -/
theorem ofTexts_takes_other_name :
    (find? "add-manual-trigger").isSome = true ∧
      ofTexts "add-manual-trigger" ["recipe=find-missing-timeout"] =
        .ok (.audit .missingTimeout) ∧
      (Recipe.audit .missingTimeout).name ≠ "add-manual-trigger" :=
  ⟨by decide, ofTexts_of_toOption (by decide +kernel), by decide⟩

end Recipe

end WorkflowRecipes
