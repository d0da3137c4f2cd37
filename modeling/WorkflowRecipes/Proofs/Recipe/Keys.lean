import WorkflowRecipes.Proofs.Document.Entries
import WorkflowRecipes.Recipe.Reading

/-!
# The keys of options

A recipe is read from a mapping only if every key is `recipe` or stands for an option of that
recipe. An option is called by its name, but its number among the options of the recipe is taken as
well.

Results:
1. `exists_ofKey_iff`: the keys that stand for an option.
2. `exists_error_of_misses`: a mapping with another key is refused.
-/

namespace WorkflowRecipes

/-! ## Keys of fields -/

namespace OptionField

variable {fields : List OptionField}

theorem ofKey_string_ok {name : String} {field : OptionField}
    (h : ofKey fields (.string name) = .ok field) : field ∈ fields ∧ field.name = name := by
  rw [ofKey] at h
  split at h
  · next found hfound =>
    cases h
    have hname := List.find?_some hfound
    exact ⟨List.mem_of_find?_eq_some hfound, by simpa using hname⟩
  · cases h

theorem ofKey_integer_ok {i : Int} {field : OptionField}
    (h : ofKey fields (.number (.integer i)) = .ok field) :
    0 ≤ i ∧ fields[i.toNat]? = some field := by
  rw [ofKey] at h
  split at h
  · cases h
  · next hi =>
    split at h
    · next found hfound =>
      cases h
      exact ⟨by omega, hfound⟩
    · cases h

/-- A key stands for a field if it is its name or its number. -/
theorem exists_ofKey_iff (key : Value) :
    (∃ field, ofKey fields key = .ok field) ↔
      (∃ field ∈ fields, key = .string field.name) ∨
        ∃ i : Nat, i < fields.length ∧ key = .number (.integer i) := by
  constructor
  · rintro ⟨field, h⟩
    cases key with
    | string name =>
      obtain ⟨hmem, rfl⟩ := ofKey_string_ok h
      exact .inl ⟨field, hmem, rfl⟩
    | number n =>
      cases n with
      | integer i =>
        obtain ⟨hi, hget⟩ := ofKey_integer_ok h
        obtain ⟨hlt, -⟩ := List.getElem?_eq_some_iff.mp hget
        exact .inr ⟨i.toNat, hlt, by rw [Int.toNat_of_nonneg hi]⟩
      | float x => cases h
    | _ => cases h
  · rintro (⟨field, hmem, rfl⟩ | ⟨i, hi, rfl⟩)
    · have hsome : (fields.find? fun f => f.name == field.name).isSome := by
        rw [List.find?_isSome]
        exact ⟨field, hmem, by simp⟩
      obtain ⟨found, hfound⟩ := Option.isSome_iff_exists.mp hsome
      exact ⟨found, by simp only [ofKey, hfound]⟩
    · have hget : fields[(i : Int).toNat]? = some fields[i] := by simp [hi]
      have hnot : ¬ (i : Int) < 0 := by omega
      exact ⟨fields[i], by simp only [ofKey, if_neg hnot, hget]⟩

/-- Every key of a mapping that can be read stands for a field. -/
theorem exists_ofKey_of_readEntries {given all : GivenOptions} {entries : Entries}
    (h : readEntries fields given entries = .ok all) :
    ∀ e ∈ entries, ∃ field, ofKey fields e.1 = .ok field := by
  induction entries generalizing given with
  | nil => exact fun e he => absurd he List.not_mem_nil
  | cons e rest ih =>
    obtain ⟨key, value⟩ := e
    rw [readEntries] at h
    split at h
    · cases h
    · next field hkey =>
      split at h
      · cases h
      · split at h
        · cases h
        · intro e he
          rcases List.mem_cons.mp he with rfl | he
          · exact ⟨field, hkey⟩
          · exact ih h e he

end OptionField

/-! ## Kinds of recipes -/

namespace RecipeKind

/-- The keys that stand for an option of a kind: its name, or its number. -/
def Knows (kind : RecipeKind) (key : Value) : Prop :=
  (∃ field ∈ kind.fields, key = .string field.name) ∨
    ∃ i : Nat, i < kind.fields.length ∧ key = .number (.integer i)

/-- One of the keys is neither `recipe` nor stands for an option. -/
def Misses (kind : RecipeKind) (keys : List Value) : Prop :=
  ∃ key ∈ keys, key.isKey nameKey = false ∧ ¬ kind.Knows key

/-- What a mapping has under `recipe` is the name of a kind. -/
def IsNamedBy (kind : RecipeKind) (entries : Entries) : Prop :=
  ∀ e ∈ entries, e.1.isKey nameKey = true → e.2.text? = some kind.name

theorem names_nodup : names.Nodup := by decide

theorem find?_eq_of_mem {kinds : List RecipeKind} {kind : RecipeKind}
    (hnodup : (kinds.map (·.name)).Nodup) (h : kind ∈ kinds) :
    kinds.find? (fun other => other.name == kind.name) = some kind := by
  induction kinds with
  | nil => exact absurd h List.not_mem_nil
  | cons first rest ih =>
    rw [List.map_cons, List.nodup_cons] at hnodup
    rcases List.mem_cons.mp h with rfl | h
    · simp
    · have hne : first.name ≠ kind.name := by
        intro he
        exact hnodup.1 (he ▸ List.mem_map_of_mem h)
      rw [List.find?_cons_of_neg (by simpa using hne), ih hnodup.2 h]

/-- A kind is found by its name. -/
theorem ofName_name {kind : RecipeKind} (h : kind ∈ catalog) : ofName kind.name = .ok kind := by
  unfold ofName find?
  rw [find?_eq_of_mem names_nodup h]

theorem ofValue_of_text? {kind : RecipeKind} (h : kind ∈ catalog) {value : Value}
    (hvalue : value.text? = some kind.name) : ofValue value = .ok kind := by
  have hname : value.untagged = .string kind.name := by
    unfold Value.text? at hvalue
    split at hvalue
    · next name hname => rw [hname, Option.some.inj hvalue]
    · cases hvalue
  simp only [ofValue, hname]
  exact ofName_name h

/-- Entries are parted, one after the other, into the kind of recipe that they name and the options:
`option` is the option that an entry gives, unless its key is `recipe` and it `names` a kind. -/
inductive Parts {α : Type} (option : α → Value × Value) (names : α → RecipeKind → Prop) :
    Option RecipeKind → Entries → List α → RecipeKind → Entries → Prop
  | done {kind : RecipeKind} {before : Entries} :
      Parts option names (some kind) before [] kind before.reverse
  | name {kind : Option RecipeKind} {found chosen : RecipeKind} {before options : Entries} {e : α}
      {rest : List α} :
      (option e).1.isKey nameKey = true → names e found →
      Parts option names (some found) before rest chosen options →
      Parts option names kind before (e :: rest) chosen options
  | keep {kind : Option RecipeKind} {chosen : RecipeKind} {before options : Entries} {e : α}
      {rest : List α} :
      (option e).1.isKey nameKey = false →
      Parts option names kind (option e :: before) rest chosen options →
      Parts option names kind before (e :: rest) chosen options

/-- The options are those of all entries but the name, and the kind is what the name says. -/
theorem Parts.spec {α : Type} {option : α → Value × Value} {names : α → RecipeKind → Prop}
    {kind : Option RecipeKind} {before options : Entries} {entries : List α} {chosen : RecipeKind}
    (h : Parts option names kind before entries chosen options) :
    (kind = some chosen ∨ ∃ e ∈ entries, (option e).1.isKey nameKey = true ∧ names e chosen) ∧
      (∀ e ∈ before, e ∈ options) ∧
        ∀ e ∈ entries, (option e).1.isKey nameKey = false → option e ∈ options := by
  induction h with
  | done => exact ⟨.inl rfl, fun _ => List.mem_reverse.mpr, nofun⟩
  | name hkey hnames _ ih =>
    obtain ⟨hchosen, hbefore, hrest⟩ := ih
    refine ⟨.inr ?_, hbefore, ?_⟩
    · rcases hchosen with hchosen | ⟨e, he, hname⟩
      · cases hchosen
        exact ⟨_, List.mem_cons_self, hkey, hnames⟩
      · exact ⟨e, List.mem_cons_of_mem _ he, hname⟩
    · intro e he hother
      rcases List.mem_cons.mp he with rfl | he
      · rw [hkey] at hother
        cases hother
      · exact hrest e he hother
  | keep _ _ ih =>
    obtain ⟨hchosen, hbefore, hrest⟩ := ih
    refine ⟨?_, fun e he => hbefore e (List.mem_cons_of_mem _ he), ?_⟩
    · rcases hchosen with hchosen | ⟨e, he, hname⟩
      · exact .inl hchosen
      · exact .inr ⟨e, List.mem_cons_of_mem _ he, hname⟩
    · intro e he hother
      rcases List.mem_cons.mp he with rfl | he
      · exact hbefore _ List.mem_cons_self
      · exact hrest e he hother

theorem parts_of_split {kind : Option RecipeKind} {before entries options : Entries}
    {chosen : RecipeKind} (h : split kind before entries = .ok (chosen, options)) :
    Parts id (fun e kind => ofValue e.2 = .ok kind) kind before entries chosen options := by
  induction entries generalizing kind before with
  | nil =>
    cases kind with
    | none => cases h
    | some kind =>
      cases h
      exact .done
  | cons e rest ih =>
    obtain ⟨key, value⟩ := e
    rw [split] at h
    split at h
    · next hkey =>
      split at h
      · next found hfound => exact .name hkey hfound (ih h)
      · cases h
    · next hkey =>
      split at h
      · cases h
      · exact .keep (Bool.eq_false_iff.mpr hkey) (ih h)

/-- A kind knows the keys of all options that it can read. -/
theorem knows_of_ofOptions {kind : RecipeKind} {options : Entries} {recipe : Recipe}
    (h : kind.ofOptions options = .ok recipe) : ∀ e ∈ options, kind.Knows e.1 := by
  intro e he
  unfold ofOptions at h
  cases hread : OptionField.readEntries kind.fields [] options with
  | error error =>
    rw [hread] at h
    cases h
  | ok all =>
    exact (OptionField.exists_ofKey_iff e.1).mp
      (OptionField.exists_ofKey_of_readEntries hread e he)

end RecipeKind

namespace Recipe

open RecipeKind

variable {kind : RecipeKind} (hkind : kind ∈ RecipeKind.catalog)

include hkind in
/-- A mapping with a key that is neither `recipe` nor stands for an option gives no recipe. -/
theorem exists_error_of_misses {entries : Entries} (hname : kind.IsNamedBy entries)
    (hmisses : kind.Misses (entries.map (·.1))) :
    ∃ error, Recipe.ofEntries entries = .error error := by
  cases h : Recipe.ofEntries entries with
  | error error => exact ⟨error, rfl⟩
  | ok recipe =>
    exfalso
    obtain ⟨key, hkey, hother, hunknown⟩ := hmisses
    obtain ⟨e, he, rfl⟩ := List.mem_map.mp hkey
    unfold ofEntries at h
    split at h
    · next chosen options hsplit =>
      obtain ⟨hchosen, -, hoptions⟩ := (parts_of_split hsplit).spec
      rcases hchosen with hnone | ⟨named, hnamed, hisname, hvalue⟩
      · cases hnone
      · rw [ofValue_of_text? hkind (hname named hnamed hisname)] at hvalue
        cases hvalue
        exact hunknown (knows_of_ofOptions h e (hoptions e he hother))
    · cases h

/-! ## Options that are given as texts -/

theorem mem_insert {entries : Entries} {key value : Value} {e : Value × Value}
    (h : e ∈ entries.insert key value) : e.1 = key ∨ ∃ e' ∈ entries, e'.1 = e.1 := by
  induction entries with
  | nil =>
    obtain rfl := List.mem_singleton.mp h
    exact .inl rfl
  | cons first rest ih =>
    obtain ⟨k, v⟩ := first
    rw [Entries.insert] at h
    split at h
    · rcases List.mem_cons.mp h with rfl | h
      · exact .inr ⟨(k, v), List.mem_cons_self, rfl⟩
      · exact .inr ⟨e, List.mem_cons_of_mem _ h, rfl⟩
    · rcases List.mem_cons.mp h with rfl | h
      · exact .inr ⟨_, List.mem_cons_self, rfl⟩
      · rcases ih h with hkey | ⟨e', he', hsame⟩
        · exact .inl hkey
        · exact .inr ⟨e', List.mem_cons_of_mem _ he', hsame⟩

/-- The keys of options that are given as texts are texts. -/
theorem isString_of_entriesOfTexts {options : List String} {before entries : Entries}
    (hbefore : ∀ e ∈ before, ∃ name, e.1 = .string name)
    (h : entriesOfTexts before options = .ok entries) :
    ∀ e ∈ entries, ∃ name, e.1 = .string name := by
  induction options generalizing before with
  | nil =>
    cases h
    exact hbefore
  | cons text rest ih =>
    rw [entriesOfTexts] at h
    split at h
    · cases h
    · refine ih ?_ h
      intro e he
      rcases mem_insert he with hkey | ⟨e', he', hsame⟩
      · exact ⟨_, hkey⟩
      · obtain ⟨name, hname⟩ := hbefore e' he'
        exact ⟨name, hsame ▸ hname⟩

include hkind in
/-- Options that are given as texts are called by their names alone. -/
theorem ofTexts_error_of_misses {name : String} {options : List String} {entries : Entries}
    (hfound : (RecipeKind.find? name).isSome = true)
    (hentries : entriesOfTexts [(.string nameKey, .string name)] options = .ok entries)
    (hname : kind.IsNamedBy entries)
    (hother : ∃ e ∈ entries, e.1.isKey nameKey = false ∧
      ∀ field ∈ kind.fields, e.1.isKey field.name = false) :
    ∃ error, Recipe.ofTexts name options = .error (.options error) := by
  obtain ⟨e, he, hisname, hfields⟩ := hother
  have hmisses : kind.Misses (entries.map (·.1)) := by
    refine ⟨e.1, List.mem_map_of_mem he, hisname, ?_⟩
    rintro (⟨field, hfield, hkey⟩ | ⟨i, -, hkey⟩)
    · have hnot := hfields field hfield
      rw [Value.isKey_iff.mpr hkey] at hnot
      cases hnot
    · have hstart : ∀ e ∈ [(Value.string nameKey, Value.string name)], ∃ name, e.1 = .string name :=
        fun e he => ⟨nameKey, by rw [List.mem_singleton.mp he]⟩
      obtain ⟨text, htext⟩ := isString_of_entriesOfTexts hstart hentries e he
      rw [hkey] at htext
      cases htext
  obtain ⟨error, herror⟩ := exists_error_of_misses hkind hname hmisses
  have hnone : (RecipeKind.find? name).isNone = false := by
    rw [← Option.not_isSome, hfound]
    rfl
  refine ⟨error, ?_⟩
  unfold ofTexts
  simp only [hnone, hentries, herror, Bool.false_eq_true, if_false]

end Recipe

end WorkflowRecipes
