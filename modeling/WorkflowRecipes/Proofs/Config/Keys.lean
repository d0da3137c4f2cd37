import Mathlib
import WorkflowRecipes.Config.Reading
import WorkflowRecipes.Proofs.Document.Equality
import WorkflowRecipes.Proofs.Recipe.Keys

/-!
# The keys of options in a configuration

In a configuration the options of a recipe stand beside its name. Here, too, every other key must
stand for an option, or the whole configuration is refused.

Results:
1. `exists_error_of_entry`: a configuration with a recipe that is refused is refused.
2. `other_keys_refused`: the keys that are refused, wherever a recipe is read.
-/

namespace WorkflowRecipes

namespace Config

open Yaml RecipeKind

/-- What stands under `recipe` in a configuration is the name of a kind. -/
def IsNamedBy (kind : RecipeKind) (entries : List (Tree × Tree)) : Prop :=
  ∀ e ∈ entries, (optionValue e.1).isKey nameKey = true →
    ∃ properties style, e.2 = .scalar properties kind.name.toList style

variable {place list : Location}

theorem readKind_of_isNamed {kind : RecipeKind} (h : kind ∈ catalog) (properties : Properties)
    (style : Style) : readKind place (.scalar properties kind.name.toList style) = .ok kind := by
  rw [readKind, String.ofList_toList, ofName_name h]
  rfl

theorem parts_of_splitRecipe {kind : Option RecipeKind} {before options : Entries}
    {entries : List (Tree × Tree)} {chosen : RecipeKind}
    (h : splitRecipe place kind before entries = .ok (chosen, options)) :
    Parts (fun e => (optionValue e.1, optionValue e.2))
      (fun e kind => ∃ at', readKind at' e.2 = .ok kind) kind before entries chosen options := by
  induction entries generalizing kind before with
  | nil =>
    cases kind with
    | none => cases h
    | some kind =>
      cases h
      exact .done
  | cons e rest ih =>
    obtain ⟨key, value⟩ := e
    rw [splitRecipe] at h
    split at h
    · next hkey =>
      split at h
      · next found hfound => exact .name hkey ⟨_, hfound⟩ (ih h)
      · cases h
    · next hkey =>
      split at h
      · cases h
      · exact .keep (Bool.eq_false_iff.mpr hkey) (ih h)

/-- An entry for a recipe with a key that is neither `recipe` nor stands for an option is
refused. -/
theorem readRecipe_error_of_misses {kind : RecipeKind} (hkind : kind ∈ catalog)
    {properties : Properties} {entries : List (Tree × Tree)} (hname : IsNamedBy kind entries)
    (hmisses : kind.Misses (entries.map fun e => optionValue e.1)) :
    ∃ error, readRecipe list place (.mapping properties entries) = .error error := by
  cases h : readRecipe list place (.mapping properties entries) with
  | error error => exact ⟨error, rfl⟩
  | ok recipe =>
    exfalso
    obtain ⟨key, hkey, hother, hunknown⟩ := hmisses
    obtain ⟨e, he, rfl⟩ := List.mem_map.mp hkey
    unfold readRecipe at h
    split at h
    · cases h
    · dsimp only at h
      cases hsplit : splitRecipe place none [] entries with
      | error error =>
        rw [hsplit] at h
        cases h
      | ok parts =>
        obtain ⟨chosen, options⟩ := parts
        rw [hsplit] at h
        obtain ⟨hchosen, -, hoptions⟩ := (parts_of_splitRecipe hsplit).spec
        rcases hchosen with hnone | ⟨named, hnamed, hisname, at', hread⟩
        · cases hnone
        · obtain ⟨properties, style, hscalar⟩ := hname named hnamed hisname
          rw [hscalar, readKind_of_isNamed hkind] at hread
          cases hread
          cases hmade : kind.ofOptions options with
          | error error =>
            rw [Except.bind, hmade] at h
            cases h
          | ok made => exact hunknown (knows_of_ofOptions hmade _ (hoptions e he hother))

/-! ## From one entry to the whole -/

/-- Steps of which one always fails fail together. -/
theorem foldlM_error {ε α σ : Type} {step : σ → α → Except ε σ} {items : List α}
    (h : ∃ item ∈ items, ∀ state, ∃ error, step state item = .error error) (state : σ) :
    ∃ error, items.foldlM step state = .error error := by
  induction items generalizing state with
  | nil =>
    obtain ⟨item, hmem, -⟩ := h
    exact absurd hmem List.not_mem_nil
  | cons first rest ih =>
    rw [List.foldlM_cons]
    cases hfirst : step state first with
    | error error => exact ⟨error, rfl⟩
    | ok next =>
      obtain ⟨item, hmem, hfails⟩ := h
      rcases List.mem_cons.mp hmem with rfl | hmem
      · obtain ⟨error, herror⟩ := hfails state
        rw [hfirst] at herror
        cases herror
      · exact ih ⟨item, hmem, hfails⟩ next

theorem readRecipes_error {trees : List Tree} {tree : Tree} (hmem : tree ∈ trees)
    (h : ∀ place, ∃ error, readRecipe list place tree = .error error) (position : Nat) :
    ∃ error, readRecipes list position trees = .error error := by
  induction trees generalizing position with
  | nil => exact absurd hmem List.not_mem_nil
  | cons first rest ih =>
    rw [readRecipes]
    cases hfirst : readRecipe list (list.index position) first with
    | error error => exact ⟨error, rfl⟩
    | ok recipe =>
      rcases List.mem_cons.mp hmem with rfl | hmem
      · obtain ⟨error, herror⟩ := h (list.index position)
        rw [hfirst] at herror
        cases herror
      · obtain ⟨error, herror⟩ := ih hmem (position + 1)
        exact ⟨error, by rw [Except.bind, herror]; rfl⟩

/-- The list of recipes of a configuration holds an entry. -/
def HoldsEntry (tree entry : Tree) : Prop :=
  ∃ properties entries, tree = .mapping properties entries ∧
    ∃ keyProperties style listProperties items,
      (.scalar keyProperties "recipes".toList style, .sequence listProperties items) ∈ entries ∧
        entry ∈ items

/-- The list of recipes is refused with each of its entries. -/
theorem take_recipes_error {properties : Properties} {items : List Tree} {entry : Tree}
    (hmem : entry ∈ items)
    (h : ∀ list place, ∃ error, readRecipe list place entry = .error error) (draft : Draft) :
    ∃ error, draft.take "recipes" (.sequence properties items) = .error error := by
  have htake : draft.take "recipes" (.sequence properties items) =
      (once .root "recipes" draft.recipes (readRecipes (Location.root.key "recipes") 0 items)).map
        fun field => { draft with recipes := field } := rfl
  obtain ⟨error, herror⟩ : ∃ error,
      readRecipes (Location.root.key "recipes") 0 items = .error error :=
    readRecipes_error hmem (h _) 0
  rw [htake, herror, once]
  split
  · exact ⟨_, rfl⟩
  · exact ⟨error, rfl⟩

/-- A configuration with an entry that is refused is refused. -/
theorem exists_error_of_entry {text : String} {tree entry : Tree} {rest : List Tree}
    (htrees : trees? text.toList = some (tree :: rest)) (hentry : HoldsEntry tree entry)
    (h : ∀ list place, ∃ error, readRecipe list place entry = .error error) :
    ∃ error, Config.ofText text = .error error := by
  obtain ⟨properties, entries, rfl, keyProperties, style, listProperties, items, hmem, hitem⟩ :=
    hentry
  have htaken : ∃ error, takeEntries .root Draft.take {} entries = .error error := by
    refine foldlM_error ⟨_, hmem, fun draft => ?_⟩ ({} : Draft)
    obtain ⟨error, herror⟩ : ∃ error,
        draft.take "recipes" (.sequence listProperties items) = .error error :=
      take_recipes_error hitem h draft
    exact ⟨error, by simp only [readText, String.ofList_toList, Except.bind, herror]⟩
  obtain ⟨error, herror⟩ := htaken
  unfold ofText
  rw [htrees]
  cases documents? text with
  | none => exact ⟨_, rfl⟩
  | some docs =>
    refine ⟨error, ?_⟩
    simp only [ofTree, readEntries, Except.bind, herror]

end Config

/-! ## The keys that are refused -/

namespace RecipeKind

/-- No recipe is made where a key is neither `recipe` nor stands for an option of that recipe. That
holds for a mapping, for options that are given as texts, where only the names of the options stand
for them, and for a configuration with such an entry. -/
theorem other_keys_refused {kind : RecipeKind} (hkind : kind ∈ catalog) :
    (∀ entries : Entries, kind.IsNamedBy entries → kind.Misses (entries.map (·.1)) →
      ∃ error, Recipe.ofEntries entries = .error error) ∧
    (∀ name options entries, (find? name).isSome = true →
      Recipe.entriesOfTexts [(.string nameKey, .string name)] options = .ok entries →
        kind.IsNamedBy entries →
          (∃ e ∈ entries, e.1.isKey nameKey = false ∧
            ∀ field ∈ kind.fields, e.1.isKey field.name = false) →
              ∃ error, Recipe.ofTexts name options = .error (.options error)) ∧
    ∀ text tree rest properties entries,
      Yaml.trees? text.toList = some (tree :: rest) →
        Config.HoldsEntry tree (.mapping properties entries) → Config.IsNamedBy kind entries →
          kind.Misses (entries.map fun e => Config.optionValue e.1) →
            ∃ error, Config.ofText text = .error error := by
  refine ⟨?_, ?_, ?_⟩
  · intro entries hname hmisses
    exact Recipe.exists_error_of_misses hkind hname hmisses
  · intro name options entries hfound hentries hname hother
    exact Recipe.ofTexts_error_of_misses hkind hfound hentries hname hother
  · intro text tree rest properties entries htrees hentry hname hmisses
    exact Config.exists_error_of_entry htrees hentry fun _ _ =>
      Config.readRecipe_error_of_misses hkind hname hmisses

/-- What is read from the option `jobs=x` of `replace-runners`. -/
def jobsEntries : Entries :=
  [(.string nameKey, .string "replace-runners"), (.string "jobs", .string "x")]

/-- An entry for `replace-runners` with a number that comes after those of its options. -/
def overnumberedEntries : List (Yaml.Tree × Yaml.Tree) :=
  [(.scalar {} "recipe".toList .plain, .scalar {} "replace-runners".toList .plain),
    (.scalar {} ['2'] .plain, .scalar {} ['x'] .plain)]

/-- A configuration with that entry. -/
def overnumberedTree : Yaml.Tree :=
  .mapping {} [(.scalar {} "recipes".toList .plain,
    .sequence {} [.mapping {} overnumberedEntries])]

/-- A truth value is no key of `replace-runners`, among options that are given as texts `jobs` is
none, and a configuration is refused for a number that comes after those of the options. -/
theorem other_keys_refused_runners :
    (∃ error, Recipe.ofEntries [(.string "recipe", .string "replace-runners"),
      (.string "job-name", .string "build"), (.bool true, .null)] = .error error) ∧
    (∃ error, Recipe.ofTexts "replace-runners" ["jobs=x"] =
      .error (.options error)) ∧
    ∃ error, Config.ofText "recipes:\n  - recipe: replace-runners\n    2: x\n" = .error error := by
  have hkind : catalog[13] ∈ catalog := List.getElem_mem (by decide)
  obtain ⟨hentries, htexts, htext⟩ := other_keys_refused hkind
  refine ⟨hentries _ ?_ ?_, ?_, ?_⟩
  · unfold IsNamedBy
    decide
  · refine ⟨.bool true, by simp, rfl, ?_⟩
    rintro (⟨field, -, h⟩ | ⟨i, -, h⟩) <;> cases h
  · have hread : (Recipe.entriesOfTexts [(.string nameKey, .string "replace-runners")]
        ["jobs=x"]).toOption = some jobsEntries := by decide +kernel
    cases hparsed : Recipe.entriesOfTexts [(.string nameKey, .string "replace-runners")]
        ["jobs=x"] with
    | error error =>
      rw [hparsed] at hread
      cases hread
    | ok entries =>
      rw [hparsed] at hread
      obtain rfl := Option.some.inj hread
      refine htexts _ _ _ rfl hparsed (by unfold IsNamedBy; decide) ?_
      exact ⟨(.string "jobs", .string "x"), by simp [jobsEntries], rfl, by decide⟩
  · have htrees : Yaml.trees? "recipes:\n  - recipe: replace-runners\n    2: x\n".toList =
        some [overnumberedTree] := by cbv
    refine htext _ _ _ {} overnumberedEntries htrees ?_ ?_ ?_
    · exact ⟨{}, _, rfl, {}, .plain, {}, _, List.mem_cons_self, List.mem_cons_self⟩
    · intro e he hkey
      rcases List.mem_cons.mp he with rfl | he
      · exact ⟨{}, .plain, rfl⟩
      · rw [List.mem_singleton.mp he] at hkey
        exact absurd hkey (by decide)
    · refine ⟨.number (.integer 2), by decide, rfl, ?_⟩
      rintro (⟨field, -, h⟩ | ⟨i, hi, h⟩)
      · cases h
      · obtain rfl : i = 2 := by
          have hint : (2 : Int) = i := Number.integer.inj (Value.number.inj h)
          omega
        exact absurd hi (by decide)

/-! ### A key that is a number -/

/-- A configuration in which the only option of a recipe is called by its number. -/
def numberedText : String :=
  "version: \"1.0\"\nname: t\nrecipes:\n  - recipe: setup-java-upgrade-java-version\n    0: 17\n"

/-- The number `0` is not the name of an option, and still a recipe is made of it, from a mapping as
well as in a configuration. -/
theorem numbered_key_accepted :
    ∃ kind ∈ catalog, kind.name = "setup-java-upgrade-java-version" ∧
      (∀ field ∈ kind.fields, (Value.number (.integer 0)).isKey field.name = false) ∧
      Recipe.ofEntries [(.string "recipe", .string "setup-java-upgrade-java-version"),
        (.number (.integer 0), .number (.integer 17))] = .ok (.amendment (.raiseJava 17)) ∧
      (Config.ofText numberedText).toOption.map (·.recipes) =
        some [.amendment (.raiseJava 17)] := by
  have hlength : 4 < catalog.length := by decide
  exact ⟨catalog[4], List.getElem_mem hlength, rfl, fun _ _ => rfl, rfl, by decide +kernel⟩

end RecipeKind

end WorkflowRecipes
